import Lumiera.Vault.Gear.ActivityLang

/-! # Gates make sure that jobs are performed in order

Each Activity passed hands control over to the one linked next, thus the number of activations is
bounded by what went through the Gate of the chain. The Gate lets control pass just once; and it
does not so before each of the notifications was received, which are sent at the end of the chains
to be waited for. -/

namespace Lumiera.Vault.Gear

open List

open Relation (ReflTransGen TransGen)
open Memory (Linked Chained Wired)

/-! ## What can be counted -/

namespace Happening

/-- An Activity was performed as part of a chain. -/
def isActivation (a : Addr) (h : Happening) : Bool := h.act = a && h.event.isNone

/-- An event was dispatched to this Activity. -/
def isDispatch (a : Addr) (h : Happening) : Bool := h.act = a && h.event.isSome

/-- The Activity passed control on. -/
def isPassing (a : Addr) (h : Happening) : Bool := h.act = a && h.res = .PASS

/-- The notification sent by this `NOTIFY` was received. -/
def isReceipt (notify : Addr) (h : Happening) : Bool :=
  h.event.any fun e => e.activity.source = some notify

end Happening

namespace Execution

variable (s : Execution)

def activations (a : Addr) : Nat := s.trace.countP (·.isActivation a)

def dispatches (a : Addr) : Nat := s.trace.countP (·.isDispatch a)

def passings (a : Addr) : Nat := s.trace.countP (·.isPassing a)

def receipts (notify : Addr) : Nat := s.trace.countP (·.isReceipt notify)

/-- The number of active chains about to perform this Activity. -/
def runningAt (a : Addr) : Nat := s.running.countP fun r => r.chain = a

/-- The number of events waiting for this Activity. -/
def pendingFor (a : Addr) : Nat := s.pending.countP fun e => e.activity.chain = a

/-- The number of events waiting which are sent by this `NOTIFY`. -/
def pendingFrom (notify : Addr) : Nat :=
  s.pending.countP fun e => e.activity.source = some notify

/-- An event is either for a Term posted, or a notification for the Gate of another Term. -/
def Addressed (e : ActivationEvent Signal) : Prop :=
  (e.activity.source = none ∧ ∃ t ∈ s.terms, e.activity.chain = t.post_) ∨
    ∃ l ∈ s.links, e.activity.source = some l.notify ∧
      ∃ t, s.terms[l.succ]? = some t ∧ e.activity.chain = t.gate_

/-- The work of a Term was completed: its job, and all up to the end of processing. -/
def Completed (p : Term) (before : List Happening) : Prop :=
  (∃ h ∈ before, h.act = p.invoke_ ∧ h.res = .PASS) ∧
    ∃ stop, s.mem.verb? stop = some .WORKSTOP ∧ ReflTransGen (Linked s.mem.next) p.invoke_ stop ∧
      ∃ h ∈ before, h.act = stop ∧ h.res = .PASS

/-- The Gate received a notification. -/
def Received (t : Term) (notify : Addr) (before : List Happening) : Prop :=
  ∃ h ∈ before, h.act = t.gate_ ∧ h.isReceipt notify = true

/-- **The Gate of a Term** counts down the notifications, and lets control pass once. -/
structure Gated (i : Nat) (t : Term) (c : Condition) : Prop where
  rest : c.rest = (s.links.countP fun l => l.succ = i && s.receipts l.notify = 0 : Nat)
  once : s.passings t.gate_ ≤ 1
  complete : 1 ≤ s.passings t.gate_ → c.rest ≤ 0
  locked : (∃ h ∈ s.trace, h.isDispatch t.gate_ = true ∧ h.res = .PASS) → c.dead = Lib.Time.MIN

/-- **Orderly execution.** -/
structure Orderly (s : Execution) : Prop where
  wired : s.mem.Wired s.terms s.links
  quiet : s.posted = [] → s.pending = [] ∧ s.running = [] ∧ s.trace = []
  once : s.posted.Nodup
  addressed : ∀ e ∈ s.pending, s.Addressed e
  running : ∀ r ∈ s.running, ∃ a, Linked s.mem.next a r.chain
  activated : ∀ h ∈ s.trace, h.event = none → ∃ a, Linked s.mem.next a h.act
  dispatched : ∀ h ∈ s.trace, ∀ e, h.event = some e → h.act = e.activity.chain ∧ s.Addressed e
  /-- Whoever is passed hands control over to the next one. -/
  flow : ∀ a b, Linked s.mem.next a b → s.runningAt b + s.activations b = s.passings a
  postOnce : ∀ i t, s.terms[i]? = some t →
    s.pendingFor t.post_ + s.dispatches t.post_ ≤ s.posted.count i
  notifyOnce : ∀ notify, s.pendingFrom notify + s.receipts notify ≤ s.passings notify
  gate : ∀ i t c, s.terms[i]? = some t → s.mem.condition? t.gate_ = some c → s.Gated i t c
  order : ∀ before h after, s.trace = before ++ h :: after →
    ∀ i t, s.terms[i]? = some t → h.act = t.invoke_ →
    ∀ l ∈ s.links, l.succ = i → ∀ p, s.terms[l.pred]? = some p →
      s.Completed p before ∧ Received t l.notify before

variable {s}

/-! ## Bounds along a chain -/

theorem Orderly.not_dispatched (hs : s.Orderly) {a : Addr} (ha : s.mem.Inner a) {h : Happening}
    (hmem : h ∈ s.trace) (hact : h.act = a) : h.event = none := by
  cases hevent : h.event with
  | none => rfl
  | some e =>
    obtain ⟨heq, haddressed⟩ := hs.dispatched h hmem e hevent
    rcases haddressed with ⟨-, t, ht, hchain⟩ | ⟨l, -, -, t, ht, hchain⟩
    · obtain ⟨_, _, _, _, hchained⟩ := hs.wired.term t ht
      obtain ⟨timeWindow, hverb⟩ := hchained.is_post
      rw [← hchain, ← heq, hact] at hverb
      exact absurd hverb (ha.1 timeWindow)
    · obtain ⟨_, _, _, _, hchained⟩ := hs.wired.term t (mem_of_getElem? ht)
      have hverb := hchained.is_gate
      rw [← hchain, ← heq, hact] at hverb
      exact absurd hverb ha.2

theorem Orderly.passings_le (hs : s.Orderly) {a : Addr} (ha : s.mem.Inner a) : s.passings a ≤ s.activations a := by
  refine countP_mono_left fun h hmem hpass => ?_
  simp only [Happening.isPassing, Happening.isActivation, Bool.and_eq_true, decide_eq_true_eq]
    at hpass ⊢
  exact ⟨hpass.1, by rw [hs.not_dispatched ha hmem hpass.1]; rfl⟩

/-- No Activity is activated more often than control was passed on by one before it. -/
theorem Orderly.activations_le (hs : s.Orderly) {a b : Addr} (hpath : TransGen (Linked s.mem.next) a b)
    (ha : s.mem.NotPost a) : s.activations b ≤ s.passings a := by
  induction hpath with
  | single hab =>
    rw [← hs.flow _ _ hab]
    exact Nat.le_add_left _ _
  | @tail b c hpath hbc ih =>
    calc s.activations c ≤ s.passings b := by
          rw [← hs.flow _ _ hbc]
          exact Nat.le_add_left _ _
      _ ≤ s.activations b := hs.passings_le (hs.wired.inner hpath ha)
      _ ≤ s.passings a := ih

variable {t : Term}

theorem Orderly.activations_post (hs : s.Orderly) (ht : t ∈ s.terms) : s.activations t.post_ = 0 := by
  refine countP_eq_zero.mpr fun h hmem hact => ?_
  simp only [Happening.isActivation, Bool.and_eq_true, decide_eq_true_eq,
    Option.isNone_iff_eq_none] at hact
  obtain ⟨_, _, _, _, hchained⟩ := hs.wired.term t ht
  obtain ⟨timeWindow, hverb⟩ := hchained.is_post
  obtain ⟨a, hlink⟩ := hs.activated h hmem hact.2
  rw [hact.1] at hlink
  exact hs.wired.not_post _ _ timeWindow hlink hverb

variable {i : Nat}

/-- A Term is posted once, so that its entrance point is passed at most once. -/
theorem Orderly.passings_post (hs : s.Orderly) (ht : s.terms[i]? = some t) : s.passings t.post_ ≤ 1 := by
  have hpass : s.passings t.post_ ≤ s.dispatches t.post_ := by
    have hnone := countP_eq_zero.mp (hs.activations_post (mem_of_getElem? ht))
    refine countP_mono_left fun h hmem hpass => ?_
    have := hnone h hmem
    simp only [Happening.isPassing, Happening.isActivation, Happening.isDispatch, Bool.and_eq_true,
      decide_eq_true_eq] at hpass this ⊢
    refine ⟨hpass.1, ?_⟩
    cases hevent : h.event with
    | none => exact absurd ⟨hpass.1, by rw [hevent]; rfl⟩ this
    | some e => rfl
  have honce := hs.postOnce i t ht
  have hcount := nodup_iff_count_le_one.mp hs.once i
  omega

theorem post_injective (hw : s.mem.Wired s.terms s.links) {j : Nat} {t' : Term} (ht : s.terms[i]? = some t)
    (ht' : s.terms[j]? = some t') (heq : t.post_ = t'.post_) : i = j := by
  have hi : (s.terms.map Term.post_)[i]? = some t.post_ := by rw [getElem?_map, ht]; rfl
  have hj : (s.terms.map Term.post_)[j]? = some t.post_ := by
    rw [getElem?_map, ht', heq]
    rfl
  have hlt := (List.getElem?_eq_some_iff.mp hi).1
  exact (getElem?_inj hlt hw.posts).mp (hi.trans hj.symm)

theorem gate_injective (hw : s.mem.Wired s.terms s.links) {j : Nat} {t' : Term} (ht : s.terms[i]? = some t)
    (ht' : s.terms[j]? = some t') (heq : t.gate_ = t'.gate_) : i = j := by
  obtain ⟨_, _, _, _, hchained⟩ := hw.term t (mem_of_getElem? ht)
  obtain ⟨_, _, _, _, hchained'⟩ := hw.term t' (mem_of_getElem? ht')
  have hlink := hchained'.post_gate
  rw [← heq] at hlink
  exact post_injective hw ht ht' (hw.injective _ _ _ hchained.post_gate hlink)

variable {l : TermLink}

theorem link_injective (hw : s.mem.Wired s.terms s.links) {l' : TermLink} (hl : l ∈ s.links)
    (hl' : l' ∈ s.links) (heq : l.notify = l'.notify) : l = l' :=
  inj_on_of_nodup_map hw.links hl hl' heq

/-- What comes before a notification: the Gate was passed, and the work was completed. -/
theorem Orderly.completed (hs : s.Orderly) (hl : l ∈ s.links) {p : Term} (hp : s.terms[l.pred]? = some p) :
    s.passings l.notify ≤ s.passings p.gate_ ∧ (1 ≤ s.passings l.notify → s.Completed p s.trace) := by
  obtain ⟨p', t, timing, hp', -, hverb, hpath⟩ := hs.wired.link l hl
  obtain rfl : p = p' := Option.some.inj (hp.symm.trans hp')
  obtain ⟨start, feed1, feed2, stop, hchained⟩ := hs.wired.term p (mem_of_getElem? hp)
  have hstop : s.passings l.notify ≤ s.passings stop := by
    refine (hs.passings_le (Memory.inner_of_notify hverb)).trans ?_
    exact hs.activations_le (hchained.stop_notify hverb hpath) hchained.inner_stop.1
  have hgate : s.passings stop ≤ s.passings p.gate_ := by
    refine (hs.passings_le hchained.inner_stop).trans ?_
    exact hs.activations_le (hchained.gate_stop) hchained.notPost_gate
  refine ⟨hstop.trans hgate, fun hpassed => ?_⟩
  have hpassing : ∀ {a}, 1 ≤ s.passings a → ∃ h ∈ s.trace, h.act = a ∧ h.res = .PASS := by
    intro a ha
    obtain ⟨h, hmem, hpass⟩ := countP_pos_iff.mp ha
    simp only [Happening.isPassing, Bool.and_eq_true, decide_eq_true_eq] at hpass
    exact ⟨h, hmem, hpass⟩
  have hinvoke : 1 ≤ s.passings p.invoke_ := by
    refine hpassed.trans (hstop.trans ?_)
    refine (hs.passings_le hchained.inner_stop).trans ?_
    exact hs.activations_le (((TransGen.single hchained.invoke_feed1).tail
      hchained.feed1_feed2).tail hchained.feed2_stop) hchained.notPost_invoke
  refine ⟨hpassing hinvoke, stop, hchained.is_stop, ?_, hpassing (hpassed.trans hstop)⟩
  exact ((ReflTransGen.single hchained.invoke_feed1).tail hchained.feed1_feed2).tail
    hchained.feed2_stop

theorem Orderly.exists_gated (hs : s.Orderly) (ht : s.terms[i]? = some t) :
    ∃ c, s.mem[t.gate_]? = some ⟨.GATE c, s.mem.next t.gate_⟩ ∧
      s.mem.condition? t.gate_ = some c ∧ s.Gated i t c := by
  obtain ⟨_, _, _, _, hchained⟩ := hs.wired.term t (mem_of_getElem? ht)
  obtain ⟨c, hmem, hc⟩ := Memory.getElem?_of_gate hchained.is_gate
  exact ⟨c, hmem, hc, hs.gate i t c ht hc⟩

/-- A notification is sent at most once. -/
theorem Orderly.notify_once (hs : s.Orderly) (hl : l ∈ s.links) : s.passings l.notify ≤ 1 := by
  obtain ⟨p, -, -, hp, -⟩ := hs.wired.link l hl
  obtain ⟨c, -, -, hgated⟩ := hs.exists_gated hp
  exact (hs.completed hl hp).1.trans hgated.once

/-- **When the Gate was passed**, then all notifications were received, and each of the other Terms
has completed its work. -/
theorem Orderly.prerequisites (hs : s.Orderly) (ht : s.terms[i]? = some t) (hpassed : 1 ≤ s.passings t.gate_)
    (hl : l ∈ s.links) (hsucc : l.succ = i) {p : Term} (hp : s.terms[l.pred]? = some p) :
    s.Completed p s.trace ∧ Received t l.notify s.trace := by
  obtain ⟨c, -, -, hgated⟩ := hs.exists_gated ht
  have hreceipts : 1 ≤ s.receipts l.notify := by
    have hrest := hgated.complete hpassed
    rw [hgated.rest] at hrest
    have hzero : (s.links.countP fun l => l.succ = i && s.receipts l.notify = 0) = 0 := by omega
    have := countP_eq_zero.mp hzero l hl
    simp only [hsucc, decide_true, Bool.true_and, decide_eq_true_eq] at this
    omega
  refine ⟨(hs.completed hl hp).2 (le_trans hreceipts ?_), ?_⟩
  · exact (Nat.le_add_left _ _).trans (hs.notifyOnce l.notify)
  · obtain ⟨h, hmem, hreceipt⟩ := countP_pos_iff.mp hreceipts
    refine ⟨h, hmem, ?_, hreceipt⟩
    simp only [Happening.isReceipt, Option.any_eq_true, decide_eq_true_eq] at hreceipt
    obtain ⟨e, hevent, hsource⟩ := hreceipt
    obtain ⟨hact, haddressed⟩ := hs.dispatched h hmem e hevent
    rcases haddressed with ⟨hnone, -⟩ | ⟨l', hl', hsource', t', ht', hchain⟩
    · rw [hnone] at hsource
      cases hsource
    · have hnotify : l.notify = l'.notify := Option.some.inj (hsource.symm.trans hsource')
      obtain rfl := link_injective hs.wired hl hl' hnotify
      rw [hsucc, ht] at ht'
      cases ht'
      rw [hact, hchain]

/-- The Gate was passed before the job is about to be invoked. -/
theorem Orderly.gate_passed (hs : s.Orderly) (ht : t ∈ s.terms) :
    s.runningAt t.invoke_ + s.activations t.invoke_ ≤ s.passings t.gate_ := by
  obtain ⟨start, _, _, _, hchained⟩ := hs.wired.term t ht
  calc s.runningAt t.invoke_ + s.activations t.invoke_ = s.passings start :=
        hs.flow _ _ hchained.start_invoke
    _ ≤ s.activations start := hs.passings_le hchained.inner_start
    _ ≤ s.passings t.gate_ :=
        hs.activations_le (.single hchained.gate_start) hchained.notPost_gate

/-! ## Wiring up -/

theorem Orderly.of_wired {mem : Memory} {terms : List Term} {links : List TermLink}
    (hw : mem.Wired terms links)
    (hgate : ∀ i t c, terms[i]? = some t → mem.condition? t.gate_ = some c →
      c.rest = (links.countP fun l => l.succ = i : Nat)) :
    Orderly ⟨mem, terms, links, [], [], [], []⟩ where
  wired := hw
  quiet _ := ⟨rfl, rfl, rfl⟩
  once := .nil
  addressed := nofun
  running := nofun
  activated := nofun
  dispatched := nofun
  flow _ _ _ := rfl
  postOnce _ _ _ := Nat.zero_le _
  notifyOnce _ := le_rfl
  gate i t c ht hc := by
    refine ⟨?_, Nat.zero_le _, fun hpassed => absurd hpassed (Nat.not_succ_le_zero 0), nofun⟩
    rw [hgate i t c ht hc]
    simp [receipts]
  order before h after heq := by
    have := congrArg List.length heq
    simp at this

theorem Orderly.rest_of_quiet (hs : s.Orderly) (hquiet : s.posted = []) {c : Condition} (ht : s.terms[i]? = some t)
    (hc : s.mem.condition? t.gate_ = some c) : c.rest = (s.links.countP fun l => l.succ = i : Nat) := by
  rw [(hs.gate i t c ht hc).rest]
  simp [receipts, (hs.quiet hquiet).2.2]

/-- Building a Term before anything is posted. -/
theorem Orderly.buildCalculationJob (hs : s.Orderly) (hquiet : s.posted = []) (job : Job)
    (start dead : Int) :
    Orderly { s with
      mem := s.mem ++ Memory.jobChain s.mem.length job start dead
      terms := s.terms ++ [⟨s.mem.length + 2, s.mem.length + 3, s.mem.length + 4⟩] } := by
  obtain ⟨hpending, hrunning, htrace⟩ := hs.quiet hquiet
  rw [hquiet, hpending, hrunning, htrace]
  refine .of_wired (hs.wired.buildCalculationJob job start dead) fun i t c ht hc => ?_
  by_cases hi : i < s.terms.length
  · -- the Gate of another Term is left as it is
    rw [getElem?_append_left hi] at ht
    obtain ⟨_, _, _, _, hchained⟩ := hs.wired.term t (mem_of_getElem? ht)
    have hlt := Memory.lt_of_verb? hchained.is_gate
    rw [Memory.condition?, getElem?_append_left hlt] at hc
    exact hs.rest_of_quiet hquiet ht hc
  · -- there is no link yet for the new Term
    have hlen : i = s.terms.length := by
      have := (List.getElem?_eq_some_iff.mp ht).1
      rw [length_append, length_singleton] at this
      omega
    subst hlen
    rw [getElem?_concat_length] at ht
    cases ht
    have hnew : Memory.condition? (s.mem ++ Memory.jobChain s.mem.length job start dead)
        (s.mem.length + 4) = some ⟨0, dead⟩ := by
      rw [Memory.condition?, getElem?_append_right (Nat.le_add_right _ _),
        Nat.add_sub_cancel_left]
      rfl
    obtain rfl := Option.some.inj (hc.symm.trans hnew)
    have hnone : (s.links.countP fun l => l.succ = s.terms.length) = 0 := by
      refine countP_eq_zero.mpr fun l hl => ?_
      obtain ⟨_, _, _, -, hsucc, -⟩ := hs.wired.link l hl
      have := (List.getElem?_eq_some_iff.mp hsucc).1
      simp only [decide_eq_true_eq]
      omega
    rw [hnone]
    rfl

/-- Linking two Terms before anything is posted. -/
theorem Orderly.linkToSuccessor (hs : s.Orderly) (hquiet : s.posted = []) {pred succ : Nat} {p : Term}
    (hp : s.terms[pred]? = some p) (ht : s.terms[succ]? = some t) {notify : Addr} {mem : Memory}
    (happ : Memory.Appended s.mem p t notify mem) :
    Orderly { s with mem := mem, links := s.links ++ [⟨pred, succ, notify⟩] } := by
  obtain ⟨hpending, hrunning, htrace⟩ := hs.quiet hquiet
  rw [hquiet, hpending, hrunning, htrace]
  refine .of_wired (hs.wired.appended hp ht happ) fun i t' c ht' hc => ?_
  obtain ⟨c₀, hc₀, hcondition⟩ := happ.condition
  rw [hcondition] at hc
  by_cases hi : succ = i
  · -- this is the Gate which waits for the new link
    subst hi
    obtain rfl : t = t' := Option.some.inj (ht.symm.trans ht')
    rw [Function.update_self] at hc
    cases hc
    have := hs.rest_of_quiet hquiet ht hc₀
    simp [Condition.incDependencies, this]
  · have hgate : t'.gate_ ≠ t.gate_ := fun heq =>
      hi (gate_injective hs.wired ht ht' heq.symm)
    rw [Function.update_of_ne hgate] at hc
    have := hs.rest_of_quiet hquiet ht' hc
    simp [hi, this]

/-- Posting a Term, which was not posted before. -/
theorem Orderly.post (hs : s.Orderly) (ht : s.terms[i]? = some t)
    (honce : i ∉ s.posted) {e : ActivationEvent Signal} (he : e.activity = ⟨t.post_, none⟩) :
    Orderly { s with posted := s.posted ++ [i], pending := s.pending ++ [e] } where
  wired := hs.wired
  quiet h := by simp at h
  once := nodup_append.mpr ⟨hs.once, nodup_singleton _, by
    intro a ha b hb heq
    rw [heq, mem_singleton.mp hb] at ha
    exact honce ha⟩
  addressed e' he' := by
    rcases mem_append.mp he' with he' | he'
    · exact hs.addressed e' he'
    · rw [mem_singleton.mp he']
      exact .inl ⟨by rw [he], t, mem_of_getElem? ht, by rw [he]⟩
  running := hs.running
  activated := hs.activated
  dispatched := hs.dispatched
  flow := hs.flow
  postOnce j t' ht' := by
    have := hs.postOnce j t' ht'
    show (s.pending ++ [e]).countP _ + s.dispatches t'.post_ ≤ (s.posted ++ [i]).count j
    rw [countP_append, countP_singleton, count_append, he]
    by_cases hj : t.post_ = t'.post_
    · obtain rfl := post_injective hs.wired ht ht' hj
      simp only [pendingFor] at this
      simp [hj]
      omega
    · simp only [pendingFor] at this
      simp only [hj, decide_false, Bool.false_eq_true, if_false]
      omega
  notifyOnce notify := by
    have := hs.notifyOnce notify
    show (s.pending ++ [e]).countP _ + s.receipts notify ≤ s.passings notify
    rw [countP_append, countP_singleton, he]
    simpa [pendingFrom] using this
  gate j t' c ht' hc :=
    have hgated := hs.gate j t' c ht' hc
    ⟨hgated.rest, hgated.once, hgated.complete, hgated.locked⟩
  order := hs.order

end Execution

end Lumiera.Vault.Gear
