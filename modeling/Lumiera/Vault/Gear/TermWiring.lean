import Mathlib.Data.List.Perm.Basic
import Lumiera.Vault.Gear.ActivityTerm

/-! # Calculation jobs wired up by notifications

What is built for several calculation jobs are chains without any Activity in common. Each chain
leads from the `POST` through the Gate to the invocation of the job, and then to the notifications
for other jobs. -/

namespace Lumiera.Vault.Gear

open Function List

open Relation (ReflTransGen TransGen)

/-- A record of a notification appended to the chain of one Term for another Term. -/
structure TermLink where
  pred : Nat
  succ : Nat
  notify : Addr
  deriving DecidableEq, Repr

namespace Memory

/-- **The chain** of a calculation job. -/
structure Chained (mem : Memory) (t : Term) (start feed1 feed2 stop : Addr) : Prop where
  is_post : ∃ timeWindow, mem.verb? t.post_ = some (.POST timeWindow)
  is_gate : mem.verb? t.gate_ = some (.GATE ⟨0, 0⟩)
  is_start : mem.verb? start = some .WORKSTART
  is_invoke : ∃ task time, mem.verb? t.invoke_ = some (.INVOKE task time)
  is_feed1 : ∃ one two, mem.verb? feed1 = some (.FEED one two)
  is_feed2 : ∃ one two, mem.verb? feed2 = some (.FEED one two)
  is_stop : mem.verb? stop = some .WORKSTOP
  post_gate : Linked mem.next t.post_ t.gate_
  gate_start : Linked mem.next t.gate_ start
  start_invoke : Linked mem.next start t.invoke_
  invoke_feed1 : Linked mem.next t.invoke_ feed1
  feed1_feed2 : Linked mem.next feed1 feed2
  feed2_stop : Linked mem.next feed2 stop

/-- **Wired up**: chains do not join, and an entrance point is never within a chain. -/
structure Wired (mem : Memory) (terms : List Term) (links : List TermLink) : Prop where
  bounded : ∀ a b, Linked mem.next a b → b < mem.length
  injective : ∀ a a' b, Linked mem.next a b → Linked mem.next a' b → a = a'
  not_post : ∀ a b timeWindow, Linked mem.next a b → mem.verb? b ≠ some (.POST timeWindow)
  before_gate : ∀ a b, Linked mem.next a b → mem.verb? b = some (.GATE ⟨0, 0⟩) →
    ∃ timeWindow, mem.verb? a = some (.POST timeWindow)
  term : ∀ t ∈ terms, ∃ start feed1 feed2 stop, Chained mem t start feed1 feed2 stop
  posts : (terms.map Term.post_).Nodup
  link : ∀ l ∈ links, ∃ p t timing, terms[l.pred]? = some p ∧ terms[l.succ]? = some t ∧
    mem.verb? l.notify = some (.NOTIFY (some t.gate_) timing) ∧
    ReflTransGen (Linked mem.next) p.invoke_ l.notify
  notify : ∀ a target timing, mem.verb? a = some (.NOTIFY target timing) →
    ∃ l ∈ links, l.notify = a
  links : (links.map TermLink.notify).Nodup

variable {mem mem' : Memory} {terms : List Term} {links : List TermLink}

theorem wired_nil : Wired [] [] [] where
  bounded _ _ h := by cases h
  injective _ _ _ h _ := by cases h
  not_post _ _ _ h := by cases h
  before_gate _ _ h := by cases h
  term := nofun
  posts := .nil
  link := nofun
  notify _ _ _ h := by cases h
  links := .nil

theorem Wired.congr (h : Wired mem terms links) (hlength : mem'.length = mem.length)
    (hnext : mem'.next = mem.next) (hverb : mem'.verb? = mem.verb?) :
    Wired mem' terms links where
  bounded := by rw [hnext, hlength]; exact h.bounded
  injective := by rw [hnext]; exact h.injective
  not_post := by rw [hnext, hverb]; exact h.not_post
  before_gate := by rw [hnext, hverb]; exact h.before_gate
  term t ht := by
    obtain ⟨start, feed1, feed2, stop, hchain⟩ := h.term t ht
    refine ⟨start, feed1, feed2, stop, ?_⟩
    constructor <;> first | rw [hnext] | rw [hverb]
    exacts [hchain.is_post, hchain.is_gate, hchain.is_start, hchain.is_invoke, hchain.is_feed1,
      hchain.is_feed2, hchain.is_stop, hchain.post_gate, hchain.gate_start, hchain.start_invoke,
      hchain.invoke_feed1, hchain.feed1_feed2, hchain.feed2_stop]
  posts := h.posts
  link := by rw [hnext, hverb]; exact h.link
  notify := by rw [hverb]; exact h.notify
  links := h.links

/-! ## One more job -/

/-- The links within the chain of a job, by position. -/
def jobNext : Nat → Option Nat
  | 0 => some 1
  | 1 => some 6
  | 2 => some 0
  | 3 => some 4
  | 4 => some 5
  | 5 => some 2
  | _ => none

theorem next_jobChain (base : Addr) (job : Job) (start dead : Int) (k : Nat) :
    Memory.next (jobChain base job start dead) k = (jobNext k).map (base + ·) := by
  match k with
  | 0 | 1 | 2 | 3 | 4 | 5 | 6 => rfl
  | _ + 7 => rfl

theorem jobNext_spec {k j : Nat} (h : jobNext k = some j) :
    (∀ k', jobNext k' = some j → k = k') ∧ j < 7 ∧ j ≠ 3 ∧ (j = 4 → k = 3) := by
  unfold jobNext at h
  split at h <;> cases h <;> refine ⟨fun k' hk' => ?_, by decide, by decide, by decide⟩ <;>
    · unfold jobNext at hk'
      split at hk' <;> first | rfl | cases hk'

variable {l : Memory} {a : Addr}

theorem next_append_left (ha : a < mem.length) : Memory.next (mem ++ l) a = mem.next a := by
  rw [Memory.next, List.getElem?_append_left ha]
  rfl

theorem verb?_append_left (ha : a < mem.length) : Memory.verb? (mem ++ l) a = mem.verb? a := by
  rw [verb?, List.getElem?_append_left ha]
  rfl

theorem verb?_block (l : Memory) (k : Nat) : Memory.verb? (mem ++ l) (mem.length + k) = l.verb? k := by
  rw [verb?, getElem?_append_right (Nat.le_add_right _ _), Nat.add_sub_cancel_left]
  rfl

variable {b : Addr}

theorem linked_append {job : Job} {start dead : Int}
    (h : Linked (Memory.next (mem ++ jobChain mem.length job start dead)) a b) :
    Linked mem.next a b ∨ ∃ k j, a = mem.length + k ∧ b = mem.length + j ∧ jobNext k = some j := by
  by_cases ha : a < mem.length
  · rw [Linked, next_append_left ha] at h
    exact .inl h
  · obtain ⟨k, rfl⟩ := Nat.exists_eq_add_of_le (not_lt.mp ha)
    rw [Linked, next_block, next_jobChain] at h
    obtain ⟨j, hj, rfl⟩ := Option.map_eq_some_iff.mp h
    exact .inr ⟨k, j, rfl, rfl, hj⟩

theorem Linked.append (h : Linked mem.next a b) : Linked (Memory.next (mem ++ l)) a b :=
  (next_append_left (lt_of_next h)).trans h

theorem chained_jobChain (mem : Memory) (job : Job) (start dead : Int) :
    Chained (mem ++ jobChain mem.length job start dead)
      ⟨mem.length + 2, mem.length + 3, mem.length + 4⟩
      (mem.length + 5) (mem.length + 0) (mem.length + 1) (mem.length + 6) where
  is_post := ⟨⟨start, dead⟩, verb?_block _ 3⟩
  is_gate := verb?_block _ 4
  is_start := verb?_block _ 5
  is_invoke := ⟨_, _, verb?_block _ 2⟩
  is_feed1 := ⟨_, _, verb?_block _ 0⟩
  is_feed2 := ⟨_, _, verb?_block _ 1⟩
  is_stop := verb?_block _ 6
  post_gate := next_block _ 3
  gate_start := next_block _ 4
  start_invoke := next_block _ 5
  invoke_feed1 := next_block _ 2
  feed1_feed2 := next_block _ 0
  feed2_stop := next_block _ 1

variable {t : Term} {feed1 feed2 start stop : Addr}

theorem Chained.append (h : Chained mem t start feed1 feed2 stop) (l : Memory) :
    Chained (mem ++ l) t start feed1 feed2 stop := by
  have hverb : ∀ {a verb}, mem.verb? a = some verb → Memory.verb? (mem ++ l) a = some verb :=
    fun ha => (verb?_append_left (lt_of_verb? ha)).trans ha
  obtain ⟨_, hpost⟩ := h.is_post
  obtain ⟨_, _, hinvoke⟩ := h.is_invoke
  obtain ⟨_, _, hfeed1⟩ := h.is_feed1
  obtain ⟨_, _, hfeed2⟩ := h.is_feed2
  exact ⟨⟨_, hverb hpost⟩, hverb h.is_gate, hverb h.is_start, ⟨_, _, hverb hinvoke⟩,
    ⟨_, _, hverb hfeed1⟩, ⟨_, _, hverb hfeed2⟩, hverb h.is_stop, h.post_gate.append,
    h.gate_start.append, h.start_invoke.append, h.invoke_feed1.append, h.feed1_feed2.append,
    h.feed2_stop.append⟩

/-- Building one more job keeps what was wired up. -/
theorem Wired.buildCalculationJob (h : Wired mem terms links) (job : Job) (start dead : Int) :
    Wired (mem ++ jobChain mem.length job start dead)
      (terms ++ [⟨mem.length + 2, mem.length + 3, mem.length + 4⟩]) links where
  bounded a b hab := by
    rw [length_append]
    rcases linked_append hab with hold | ⟨k, j, -, rfl, hj⟩
    · exact Nat.lt_add_right _ (h.bounded a b hold)
    · exact Nat.add_lt_add_left (jobNext_spec hj).2.1 _
  injective a a' b hab hab' := by
    rcases linked_append hab with hold | ⟨k, j, rfl, rfl, hj⟩
    · rcases linked_append hab' with hold' | ⟨k', j', -, rfl, -⟩
      · exact h.injective a a' b hold hold'
      · exact absurd (h.bounded _ _ hold) (Nat.not_lt.mpr (Nat.le_add_right _ _))
    · rcases linked_append hab' with hold' | ⟨k', j', rfl, heq, hj'⟩
      · exact absurd (h.bounded _ _ hold') (Nat.not_lt.mpr (Nat.le_add_right _ _))
      · obtain rfl := Nat.add_left_cancel heq
        rw [(jobNext_spec hj).1 k' hj']
  not_post a b timeWindow hab := by
    rcases linked_append hab with hold | ⟨k, j, -, rfl, hj⟩
    · rw [verb?_append_left (h.bounded a b hold)]
      exact h.not_post a b timeWindow hold
    · rw [verb?_block]
      obtain ⟨-, hlt, hne, -⟩ := jobNext_spec hj
      match j with
      | 0 | 1 | 2 | 4 | 5 | 6 => nofun
      | 3 => exact absurd rfl hne
      | _ + 7 => exact absurd hlt (Nat.not_lt.mpr (Nat.le_add_left _ _))
  before_gate a b hab hb := by
    rcases linked_append hab with hold | ⟨k, j, rfl, rfl, hj⟩
    · rw [verb?_append_left (h.bounded a b hold)] at hb
      obtain ⟨timeWindow, ha⟩ := h.before_gate a b hold hb
      exact ⟨timeWindow, (verb?_append_left (lt_of_verb? ha)).trans ha⟩
    · rw [verb?_block] at hb
      obtain ⟨-, hlt, -, hgate⟩ := jobNext_spec hj
      match j with
      | 0 | 1 | 2 | 3 | 5 | 6 => cases hb
      | 4 =>
        rw [hgate rfl]
        exact ⟨_, verb?_block _ 3⟩
      | _ + 7 => exact absurd hlt (Nat.not_lt.mpr (Nat.le_add_left _ _))
  term t ht := by
    rcases mem_append.mp ht with ht | ht
    · obtain ⟨start, feed1, feed2, stop, hchain⟩ := h.term t ht
      exact ⟨start, feed1, feed2, stop, hchain.append _⟩
    · rw [mem_singleton.mp ht]
      exact ⟨_, _, _, _, chained_jobChain mem job start dead⟩
  posts := by
    rw [map_append]
    refine nodup_append.mpr ⟨h.posts, nodup_singleton _, ?_⟩
    intro a ha b hb heq
    obtain ⟨t, ht, rfl⟩ := mem_map.mp ha
    obtain ⟨_, _, _, _, hchain⟩ := h.term t ht
    obtain ⟨_, hpost⟩ := hchain.is_post
    have hlt := lt_of_verb? hpost
    rw [heq, mem_singleton.mp hb] at hlt
    exact absurd hlt (Nat.not_lt.mpr (Nat.le_add_right _ _))
  link l hl := by
    obtain ⟨p, t, timing, hp, ht, hverb, hpath⟩ := h.link l hl
    refine ⟨p, t, timing, ?_, ?_, (verb?_append_left (lt_of_verb? hverb)).trans hverb,
      ReflTransGen.mono (fun _ _ hab => Linked.append hab) _ _ hpath⟩
    · rw [List.getElem?_append_left (List.getElem?_eq_some_iff.mp hp).1, hp]
    · rw [List.getElem?_append_left (List.getElem?_eq_some_iff.mp ht).1, ht]
  notify a target timing ha := by
    by_cases hlt : a < mem.length
    · rw [verb?_append_left hlt] at ha
      exact h.notify a target timing ha
    · obtain ⟨k, rfl⟩ := Nat.exists_eq_add_of_le (not_lt.mp hlt)
      rw [verb?_block] at ha
      match k with
      | 0 | 1 | 2 | 3 | 4 | 5 | 6 => cases ha
      | _ + 7 => cases ha
  links := h.links

/-! ## One more notification -/

theorem Linked.update {tail : Addr} {n : Option Addr} (h : Linked mem.next a b) (htail : mem.next tail = none) :
    Linked (Function.update mem.next tail n) a b := by
  rw [Linked, update_of_ne]
  · exact h
  · rintro rfl
    rw [Linked, htail] at h
    cases h

theorem Chained.appended {p t' : Term} {n : Addr} (h : Chained mem t start feed1 feed2 stop)
    (happ : Appended mem p t' n mem') : Chained mem' t start feed1 feed2 stop := by
  obtain ⟨tail, -, hend, -, hnext⟩ := happ.next
  obtain ⟨timing, hverb⟩ := happ.verb
  have hkeep : ∀ {a verb}, mem.verb? a = some verb → mem'.verb? a = some verb := by
    intro a verb ha
    rw [hverb, update_of_ne, ha]
    rw [happ.address]
    exact (lt_of_verb? ha).ne
  have hlink : ∀ {a b}, Linked mem.next a b → Linked mem'.next a b := by
    intro a b hab
    rw [hnext]
    exact hab.update hend
  obtain ⟨_, hpost⟩ := h.is_post
  obtain ⟨_, _, hinvoke⟩ := h.is_invoke
  obtain ⟨_, _, hfeed1⟩ := h.is_feed1
  obtain ⟨_, _, hfeed2⟩ := h.is_feed2
  exact ⟨⟨_, hkeep hpost⟩, hkeep h.is_gate, hkeep h.is_start, ⟨_, _, hkeep hinvoke⟩,
    ⟨_, _, hkeep hfeed1⟩, ⟨_, _, hkeep hfeed2⟩, hkeep h.is_stop, hlink h.post_gate,
    hlink h.gate_start, hlink h.start_invoke, hlink h.invoke_feed1, hlink h.feed1_feed2,
    hlink h.feed2_stop⟩

/-- Appending a notification keeps what was wired up. -/
theorem Wired.appended (h : Wired mem terms links) {p : Term} {pred succ : Nat} {n : Addr}
    (hp : terms[pred]? = some p) (ht : terms[succ]? = some t) (happ : Appended mem p t n mem') :
    Wired mem' terms (links ++ [⟨pred, succ, n⟩]) := by
  obtain ⟨tail, hpath, hend, hlt, hnext⟩ := happ.next
  obtain ⟨timing, hverb⟩ := happ.verb
  have hn := happ.address
  -- a link is either an old one, or the one to the new notification
  have hlinked : ∀ {a b}, Linked mem'.next a b → Linked mem.next a b ∨ a = tail ∧ b = n := by
    intro a b hab
    rw [Linked, hnext] at hab
    by_cases ha : a = tail
    · subst ha
      rw [update_self] at hab
      exact .inr ⟨rfl, (Option.some.inj hab).symm⟩
    · rw [update_of_ne ha] at hab
      exact .inl hab
  have hkeep : ∀ {a}, a < mem.length → mem'.verb? a = mem.verb? a := by
    intro a ha
    rw [hverb, update_of_ne]
    rw [hn]
    exact ha.ne
  have hnew : mem'.verb? n = some (.NOTIFY (some t.gate_) timing) := by
    rw [hverb, update_self]
  constructor
  case bounded =>
    intro a b hab
    rw [happ.length]
    rcases hlinked hab with hold | ⟨-, rfl⟩
    · exact Nat.lt_succ_of_lt (h.bounded a b hold)
    · rw [hn]
      exact Nat.lt_succ_self _
  case injective =>
    intro a a' b hab hab'
    have hfresh : ∀ {a}, ¬ Linked mem.next a n := by
      intro a ha
      exact absurd (h.bounded a n ha) (by rw [hn]; exact Nat.lt_irrefl _)
    rcases hlinked hab with hold | ⟨rfl, rfl⟩
    · rcases hlinked hab' with hold' | ⟨rfl, rfl⟩
      · exact h.injective a a' b hold hold'
      · exact absurd hold hfresh
    · rcases hlinked hab' with hold' | ⟨rfl, -⟩
      · exact absurd hold' hfresh
      · rfl
  case not_post =>
    intro a b timeWindow hab
    rcases hlinked hab with hold | ⟨-, rfl⟩
    · rw [hkeep (h.bounded a b hold)]
      exact h.not_post a b timeWindow hold
    · rw [hnew]
      nofun
  case before_gate =>
    intro a b hab hb
    rcases hlinked hab with hold | ⟨-, rfl⟩
    · rw [hkeep (h.bounded a b hold)] at hb
      obtain ⟨timeWindow, ha⟩ := h.before_gate a b hold hb
      exact ⟨timeWindow, (hkeep (lt_of_verb? ha)).trans ha⟩
    · rw [hnew] at hb
      cases hb
  case term =>
    intro t ht
    obtain ⟨start, feed1, feed2, stop, hchain⟩ := h.term t ht
    exact ⟨start, feed1, feed2, stop, hchain.appended happ⟩
  case posts => exact h.posts
  case link =>
    have hmono : ∀ {a b}, ReflTransGen (Linked mem.next) a b →
        ReflTransGen (Linked mem'.next) a b := by
      intro a b hab
      refine ReflTransGen.mono (fun _ _ hab => ?_) _ _ hab
      rw [hnext]
      exact hab.update hend
    intro l hl
    rcases mem_append.mp hl with hl | hl
    · obtain ⟨p, t, timing, hp, ht, hverb, hpath⟩ := h.link l hl
      exact ⟨p, t, timing, hp, ht, (hkeep (lt_of_verb? hverb)).trans hverb, hmono hpath⟩
    · rw [mem_singleton.mp hl]
      refine ⟨p, t, timing, hp, ht, hnew, (hmono hpath).tail ?_⟩
      rw [Linked, hnext, update_self]
  case notify =>
    intro a target timing ha
    by_cases heq : a = n
    · exact ⟨_, mem_append_right _ mem_cons_self, heq.symm⟩
    · rw [hverb, update_of_ne heq] at ha
      obtain ⟨l, hl, rfl⟩ := h.notify a target timing ha
      exact ⟨l, mem_append_left _ hl, rfl⟩
  case links =>
    rw [map_append]
    refine nodup_append.mpr ⟨h.links, nodup_singleton _, ?_⟩
    intro a ha b hb heq
    obtain ⟨l, hl, rfl⟩ := mem_map.mp ha
    obtain ⟨_, _, _, -, -, hnotify, -⟩ := h.link l hl
    have hlt := lt_of_verb? hnotify
    rw [heq, mem_singleton.mp hb] at hlt
    exact absurd hlt (by rw [hn]; exact Nat.lt_irrefl _)

/-! ## Along a chain -/

/-- This is not an entrance point. -/
def NotPost (mem : Memory) (a : Addr) : Prop :=
  ∀ timeWindow, mem.verb? a ≠ some (.POST timeWindow)

/-- This is just part of a chain: no entrance point, and no Gate. -/
def Inner (mem : Memory) (a : Addr) : Prop :=
  mem.NotPost a ∧ mem.verb? a ≠ some (.GATE ⟨0, 0⟩)

section Chained

variable (h : Chained mem t start feed1 feed2 stop)

include h

theorem Chained.notPost_gate : mem.NotPost t.gate_ := by
  rw [NotPost, h.is_gate]
  nofun

theorem Chained.notPost_invoke : mem.NotPost t.invoke_ := by
  obtain ⟨_, _, hinvoke⟩ := h.is_invoke
  rw [NotPost, hinvoke]
  nofun

theorem Chained.inner_start : mem.Inner start := by
  rw [Inner, NotPost, h.is_start]
  exact ⟨nofun, nofun⟩

theorem Chained.inner_stop : mem.Inner stop := by
  rw [Inner, NotPost, h.is_stop]
  exact ⟨nofun, nofun⟩

end Chained

theorem inner_of_notify {target : Option Addr} {timing : Int} (h : mem.verb? a = some (.NOTIFY target timing)) :
    mem.Inner a := by
  rw [Inner, NotPost, h]
  exact ⟨nofun, nofun⟩

theorem Wired.inner (h : Wired mem terms links) (hpath : TransGen (Linked mem.next) a b)
    (ha : mem.NotPost a) : mem.Inner b := by
  refine ⟨fun timeWindow hpost => ?_, fun hgate => ?_⟩
  · obtain ⟨c, -, hc⟩ := TransGen.tail'_iff.mp hpath
    exact h.not_post _ _ timeWindow hc hpost
  cases hpath with
  | single hab =>
    obtain ⟨timeWindow, hpost⟩ := h.before_gate _ _ hab hgate
    exact ha timeWindow hpost
  | tail hpath hlink =>
    obtain ⟨timeWindow, hpost⟩ := h.before_gate _ _ hlink hgate
    obtain ⟨c, -, hc⟩ := TransGen.tail'_iff.mp hpath
    exact h.not_post _ _ timeWindow hc hpost

theorem path_behind {c : Addr} (hab : Linked mem.next a b) (hpath : ReflTransGen (Linked mem.next) a c)
    (hne : a ≠ c) : ReflTransGen (Linked mem.next) b c := by
  rcases ReflTransGen.cases_head hpath with rfl | ⟨b', hb', hrest⟩
  · exact absurd rfl hne
  · obtain rfl : b = b' := Option.some.inj (hab.symm.trans hb')
    exact hrest

theorem Chained.gate_stop (h : Chained mem t start feed1 feed2 stop) : TransGen (Linked mem.next) t.gate_ stop :=
  (((((TransGen.single h.gate_start).tail h.start_invoke).tail h.invoke_feed1).tail
    h.feed1_feed2).tail h.feed2_stop)

/-- A notification is sent after the end of processing. -/
theorem Chained.stop_notify {notify : Addr} (h : Chained mem t start feed1 feed2 stop) {target : Option Addr}
    {timing : Int} (hverb : mem.verb? notify = some (.NOTIFY target timing))
    (hpath : ReflTransGen (Linked mem.next) t.invoke_ notify) : TransGen (Linked mem.next) stop notify := by
  have hne : ∀ {a verb}, mem.verb? a = some verb → verb ≠ .NOTIFY target timing → a ≠ notify := by
    rintro a verb ha hverb' rfl
    rw [hverb] at ha
    exact hverb' (Option.some.inj ha).symm
  obtain ⟨_, _, hinvoke⟩ := h.is_invoke
  obtain ⟨_, _, hfeed1⟩ := h.is_feed1
  obtain ⟨_, _, hfeed2⟩ := h.is_feed2
  have h₁ := path_behind h.invoke_feed1 hpath (hne hinvoke nofun)
  have h₂ := path_behind h.feed1_feed2 h₁ (hne hfeed1 nofun)
  have h₃ := path_behind h.feed2_stop h₂ (hne hfeed2 nofun)
  rcases Relation.reflTransGen_iff_eq_or_transGen.mp h₃ with heq | hpath
  · exact absurd heq.symm (hne h.is_stop nofun)
  · exact hpath

end Memory

end Lumiera.Vault.Gear
