import Lumiera.Vault.Gear.GatedChains

/-! # Jobs are performed in the order set by the Gates

Whatever happens next, it keeps the balance of the chains, and it is in accordance with the Gates;
by induction this holds for each run where all Terms are wired up before the first one is posted. -/

namespace Lumiera.Vault.Gear

open List

open Relation (ReflTransGen TransGen)
open Memory (Linked Chained Wired)

namespace Execution

variable {s : Execution}

/-! ## Something happens -/

variable {i : Nat}

theorem countP_eraseIdx {α : Type} {l : List α} {x : α} (h : l[i]? = some x)
    (p : α → Bool) : l.countP p = (l.eraseIdx i).countP p + if p x then 1 else 0 := by
  obtain ⟨hlt, rfl⟩ := List.getElem?_eq_some_iff.mp h
  rw [← (getElem_cons_eraseIdx_perm hlt).countP_eq p, countP_cons]

/-- **The effect of a single happening**, on the chains which are active and the events waiting. -/
structure Happens (s : Execution) (h : Happening) (s' : Execution) : Prop where
  terms : s'.terms = s.terms
  links : s'.links = s.links
  posted : s'.posted = s.posted
  started : s.posted ≠ []
  length : s'.mem.length = s.mem.length
  next : s'.mem.next = s.mem.next
  verb : s'.mem.verb? = s.mem.verb?
  trace : s'.trace = s.trace ++ [h]
  activated : h.event = none → ∃ a, Linked s.mem.next a h.act
  dispatched : ∀ e, h.event = some e → h.act = e.activity.chain ∧ s.Addressed e
  running : ∀ r ∈ s'.running, r ∈ s.running ∨ Linked s.mem.next h.act r.chain
  runningAt : ∀ b, s'.runningAt b + (if h.isActivation b then 1 else 0) =
    s.runningAt b + if h.res = .PASS ∧ s.mem.next h.act = some b then 1 else 0
  addressed : ∀ e ∈ s'.pending, s.Addressed e
  pendingFor : ∀ t ∈ s.terms,
    s'.pendingFor t.post_ + (if h.isDispatch t.post_ then 1 else 0) ≤ s.pendingFor t.post_
  pendingFrom : ∀ notify, s'.pendingFrom notify + (if h.isReceipt notify then 1 else 0) ≤
    s.pendingFrom notify + if h.isPassing notify then 1 else 0

variable {s' : Execution} {h : Happening}

theorem Happens.countP (hh : Happens s h s') (p : Happening → Bool) :
    s'.trace.countP p = s.trace.countP p + if p h then 1 else 0 := by
  rw [hh.trace, countP_append, countP_singleton]

variable {e : ActivationEvent Signal}

theorem Happens.addressed_congr (hh : Happens s h s') (he : s.Addressed e) : s'.Addressed e := by
  rw [Addressed, hh.terms, hh.links]
  exact he

theorem Orderly.order_happens (hs : s.Orderly) (hh : Happens s h s')
    (hinvoke : ∀ t ∈ s.terms, h.act = t.invoke_ → 1 ≤ s.passings t.gate_) :
    ∀ before x after, s'.trace = before ++ x :: after →
      ∀ i t, s'.terms[i]? = some t → x.act = t.invoke_ →
      ∀ l ∈ s'.links, l.succ = i → ∀ p, s'.terms[l.pred]? = some p →
        s'.Completed p before ∧ Received t l.notify before := by
  intro before x after heq i t ht hact l hl hsucc p hp
  rw [hh.terms] at ht hp
  rw [hh.links] at hl
  rw [Completed, hh.next, hh.verb]
  rw [hh.trace] at heq
  rcases eq_nil_or_concat after with rfl | ⟨after', y, rfl⟩
  · -- this is what happens right now
    obtain ⟨rfl, hlast⟩ := append_inj' heq rfl
    obtain rfl := head_eq_of_cons_eq hlast
    exact hs.prerequisites ht (hinvoke t (mem_of_getElem? ht) hact) hl hsucc hp
  · rw [concat_eq_append, ← cons_append, ← append_assoc] at heq
    obtain ⟨htrace, -⟩ := append_inj' heq rfl
    exact hs.order before x after' htrace i t ht hact l hl hsucc p hp

/-- Each single happening is orderly, when it is in accordance with the Gates. -/
theorem Orderly.happens (hs : s.Orderly) (hh : Happens s h s')
    (hgate : ∀ i t c, s.terms[i]? = some t → s'.mem.condition? t.gate_ = some c → s'.Gated i t c)
    (hinvoke : ∀ t ∈ s.terms, h.act = t.invoke_ → 1 ≤ s.passings t.gate_) : s'.Orderly where
  wired := by
    rw [hh.terms, hh.links]
    exact hs.wired.congr hh.length hh.next hh.verb
  quiet hquiet := absurd (hh.posted.symm.trans hquiet) hh.started
  once := by rw [hh.posted]; exact hs.once
  addressed e he := hh.addressed_congr (hh.addressed e he)
  running r hr := by
    rw [hh.next]
    rcases hh.running r hr with hr | hlink
    · exact hs.running r hr
    · exact ⟨_, hlink⟩
  activated x hx hevent := by
    rw [hh.next]
    rw [hh.trace] at hx
    rcases mem_append.mp hx with hx | hx
    · exact hs.activated x hx hevent
    · rw [mem_singleton.mp hx] at hevent ⊢
      exact hh.activated hevent
  dispatched x hx e hevent := by
    rw [hh.trace] at hx
    rcases mem_append.mp hx with hx | hx
    · exact (hs.dispatched x hx e hevent).imp_right hh.addressed_congr
    · rw [mem_singleton.mp hx] at hevent ⊢
      exact (hh.dispatched e hevent).imp_right hh.addressed_congr
  flow a b hab := by
    rw [hh.next] at hab
    have hflow := hs.flow a b hab
    have hat := hh.runningAt b
    rw [activations, passings, hh.countP, hh.countP]
    rw [activations, passings] at hflow
    -- no other Activity leads to the same one
    have hpass : h.isPassing a = true ↔ h.res = .PASS ∧ s.mem.next h.act = some b := by
      simp only [Happening.isPassing, Bool.and_eq_true, decide_eq_true_eq]
      refine ⟨fun hboth => ⟨hboth.2, by rw [hboth.1]; exact hab⟩, fun hboth => ?_⟩
      exact ⟨hs.wired.injective _ _ _ hboth.2 hab, hboth.1⟩
    rw [if_congr hpass rfl rfl]
    omega
  postOnce i t ht := by
    rw [hh.terms] at ht
    have hpost := hs.postOnce i t ht
    have hpending := hh.pendingFor t (mem_of_getElem? ht)
    rw [dispatches, hh.countP, hh.posted]
    rw [dispatches] at hpost
    omega
  notifyOnce notify := by
    have hnotify := hs.notifyOnce notify
    have hpending := hh.pendingFrom notify
    rw [receipts, passings, hh.countP, hh.countP]
    rw [receipts, passings] at hnotify
    omega
  gate i t c ht hc := by
    rw [hh.terms] at ht
    exact hgate i t c ht hc
  order := hs.order_happens hh hinvoke

/-! ## At the Gate -/

variable {a : Addr}

theorem Happens.passings_elsewhere (hh : Happens s h s') (hact : h.act ≠ a) : s'.passings a = s.passings a := by
  rw [passings, hh.countP, if_neg (by simp [Happening.isPassing, hact])]
  rfl

variable {t : Term} {c : Condition}

theorem Gated.elsewhere (hg : s.Gated i t c)
    (hh : Happens s h s') (hact : h.act ≠ t.gate_)
    (hreceipt : ∀ l ∈ s.links, l.succ = i → h.isReceipt l.notify = false) : s'.Gated i t c where
  rest := by
    rw [hg.rest, hh.links]
    refine congrArg Nat.cast (countP_congr fun l hl => ?_)
    by_cases hsucc : l.succ = i
    · rw [receipts, receipts, hh.countP, hreceipt l hl hsucc]
      simp
    · simp [hsucc]
  once := by
    rw [hh.passings_elsewhere hact]
    exact hg.once
  complete := by
    rw [hh.passings_elsewhere hact]
    exact hg.complete
  locked := by
    rintro ⟨x, hx, hdispatch, hres⟩
    rw [hh.trace] at hx
    rcases mem_append.mp hx with hx | hx
    · exact hg.locked ⟨x, hx, hdispatch, hres⟩
    · rw [mem_singleton.mp hx] at hdispatch
      simp [Happening.isDispatch, hact] at hdispatch

theorem countP_except {α : Type} [DecidableEq α] {l : List α} (hnodup : l.Nodup) {x : α} (hx : x ∈ l) {p q : α → Bool}
    (hp : p x = true) (hq : q x = false) (hpq : ∀ y ∈ l, y ≠ x → p y = q y) : l.countP p = l.countP q + 1 := by
  have hperm := perm_cons_erase hx
  rw [hperm.countP_eq p, hperm.countP_eq q, countP_cons_of_pos hp,
    countP_cons_of_neg (by rw [hq]; exact Bool.false_ne_true)]
  refine congrArg Nat.succ (countP_congr fun y hy => ?_)
  obtain ⟨hne, hmem⟩ := (List.Nodup.mem_erase_iff hnodup).mp hy
  rw [hpq y hmem hne]

/-- A notification received: it counts, and the last one passes the Gate and locks it. -/
theorem Gated.receive (hs : s.Orderly) (hg : s.Gated i t c) (hh : Happens s h s')
    {now : Int} (hres : h.res = (c.receiveGateNotification now).1) {l : TermLink} (hl : l ∈ s.links)
    (hsucc : l.succ = i) (hreceipt : ∀ notify, h.isReceipt notify = true ↔ l.notify = notify)
    (hfirst : s.receipts l.notify = 0) : s'.Gated i t (c.receiveGateNotification now).2 := by
  have hnodup : s.links.Nodup := List.Nodup.of_map _ hs.wired.links
  have hcount : (s.links.countP fun l => l.succ = i && s.receipts l.notify = 0) =
      (s.links.countP fun l => l.succ = i && s'.receipts l.notify = 0) + 1 := by
    refine countP_except hnodup hl (by simp [hsucc, hfirst]) ?_ fun l' hl' hne => ?_
    · rw [receipts, hh.countP, if_pos ((hreceipt _).mpr rfl)]
      simp
    · have hnot : ¬ h.isReceipt l'.notify = true := fun heq =>
        hne (link_injective hs.wired hl hl' ((hreceipt _).mp heq)).symm
      rw [receipts, receipts, hh.countP, if_neg hnot, Nat.add_zero]
  have hrest := hg.rest
  have hnone : s.passings t.gate_ = 0 := by
    by_contra hne
    have := hg.complete (by omega)
    omega
  have hpos : c.rest > 0 := by omega
  rw [Condition.receiveGateNotification, if_pos hpos] at hres ⊢
  by_cases hfree : Condition.isFree { c with rest := c.rest - 1 } now = true
  · rw [if_pos hfree] at hres ⊢
    refine ⟨?_, ?_, fun _ => (Condition.isFree_iff.mp hfree).1, fun _ => rfl⟩
    · show c.rest - 1 = _
      rw [hh.links]
      omega
    · rw [passings, hh.countP, ← passings]
      split <;> omega
  · rw [if_neg hfree] at hres ⊢
    have hpassing : s'.passings t.gate_ = 0 := by
      rw [passings, hh.countP, ← passings, hnone]
      simp [Happening.isPassing, hres]
    refine ⟨?_, ?_, ?_, ?_⟩
    · show c.rest - 1 = _
      rw [hh.links]
      omega
    · omega
    · intro hpassed
      omega
    · rintro ⟨x, hx, hdispatch, hpass⟩
      rw [hh.trace] at hx
      rcases mem_append.mp hx with hx | hx
      · have : 0 < s.passings t.gate_ := by
          refine countP_pos_iff.mpr ⟨x, hx, ?_⟩
          simp only [Happening.isDispatch, Bool.and_eq_true] at hdispatch
          simp only [Happening.isPassing, hdispatch.1, hpass, decide_true, Bool.and_self]
        omega
      · rw [mem_singleton.mp hx, hres] at hpass
        cases hpass

/-- The Gate is probed when performing the chain: it was not passed before. -/
theorem Gated.probe (hs : s.Orderly) (ht : s.terms[i]? = some t)
    (hg : s.Gated i t c) (hh : Happens s h s') (now : SchedTime) (hevent : h.event = none)
    (hres : h.res = c.checkGate now) (hrunning : 1 ≤ s.runningAt t.gate_) : s'.Gated i t c := by
  have hreceipts : ∀ notify, s'.receipts notify = s.receipts notify := by
    intro notify
    rw [receipts, hh.countP]
    simp [Happening.isReceipt, hevent, receipts]
  have hlocked : (∃ x ∈ s'.trace, x.isDispatch t.gate_ = true ∧ x.res = .PASS) →
      c.dead = Lib.Time.MIN := by
    rintro ⟨x, hx, hdispatch, hpass⟩
    rw [hh.trace] at hx
    rcases mem_append.mp hx with hx | hx
    · exact hg.locked ⟨x, hx, hdispatch, hpass⟩
    · rw [mem_singleton.mp hx] at hdispatch
      simp [Happening.isDispatch, hevent] at hdispatch
  have hrest : c.rest = (s'.links.countP fun l => l.succ = i && s'.receipts l.notify = 0 : Nat) := by
    rw [hg.rest, hh.links]
    simp only [hreceipts]
  by_cases hpass : c.checkGate now = .PASS
  · obtain ⟨hfree, halive⟩ := Condition.checkGate_eq_PASS_iff.mp hpass
    have hnone : s.passings t.gate_ = 0 := by
      by_contra hne
      obtain ⟨x, hx, hpassing⟩ := countP_pos_iff.mp (Nat.pos_of_ne_zero hne)
      simp only [Happening.isPassing, Bool.and_eq_true, decide_eq_true_eq] at hpassing
      cases hx' : x.event with
      | some e =>
        -- it was locked already
        have := hg.locked ⟨x, hx, by simp [Happening.isDispatch, hpassing.1, hx'], hpassing.2⟩
        omega
      | none =>
        -- the chain was performed up to here, thus it is not performed once more
        have hactivations : 0 < s.activations t.gate_ :=
          countP_pos_iff.mpr ⟨x, hx, by simp [Happening.isActivation, hpassing.1, hx']⟩
        obtain ⟨_, _, _, _, hchained⟩ := hs.wired.term t (mem_of_getElem? ht)
        have := hs.flow _ _ hchained.post_gate
        have := hs.passings_post ht
        omega
    refine ⟨hrest, ?_, fun _ => hfree, hlocked⟩
    rw [passings, hh.countP, ← passings]
    split <;> omega
  · have hpassing : s'.passings t.gate_ = s.passings t.gate_ := by
      rw [passings, hh.countP]
      simp [Happening.isPassing, hres, hpass, passings]
    refine ⟨hrest, ?_, ?_, hlocked⟩
    · rw [hpassing]
      exact hg.once
    · rw [hpassing]
      exact hg.complete

/-! ## Dispatch and activation -/

theorem countP_follow (a : Addr) (rootEvent : ActivationEvent Signal) (res : Proc) (b : Addr) :
    (s.follow a rootEvent res).countP (fun r => r.chain = b) =
      if res = .PASS ∧ s.mem.next a = some b then 1 else 0 := by
  by_cases hres : res = .PASS
  · rw [follow]
    cases hnext : s.mem.next a with
    | none => simp
    | some c => simp [hres]
  · rw [follow, if_neg hres, if_neg (fun h => hres h.1)]
    rfl

theorem linked_of_mem_follow {rootEvent : ActivationEvent Signal} {res : Proc}
    {r : ActiveChain} (hr : r ∈ s.follow a rootEvent res) : Linked s.mem.next a r.chain := by
  unfold follow at hr
  split at hr
  · obtain ⟨b, hb, rfl⟩ := mem_map.mp hr
    exact Option.mem_toList.mp hb
  · cases hr

/-- An event dispatched is taken out, and possibly makes a chain active. -/
theorem Orderly.happens_dispatch (hs : s.Orderly)
    (he : s.pending[i]? = some e) {mem : Memory} (hlength : mem.length = s.mem.length)
    (hnext : mem.next = s.mem.next) (hverb : mem.verb? = s.mem.verb?) (res : Proc) :
    Happens s ⟨e.activity.chain, some e, none, res⟩ { s with
      mem := mem
      pending := s.pending.eraseIdx i ++ []
      running := s.running ++ s.follow e.activity.chain e res
      trace := s.trace ++ [⟨e.activity.chain, some e, none, res⟩] } where
  terms := rfl
  links := rfl
  posted := rfl
  started hquiet := by
    rw [(hs.quiet hquiet).1] at he
    cases he
  length := hlength
  next := hnext
  verb := hverb
  trace := rfl
  activated hevent := by cases hevent
  dispatched e' hevent := by
    cases hevent
    exact ⟨rfl, hs.addressed e (mem_of_getElem? he)⟩
  running r hr := (mem_append.mp hr).imp_right linked_of_mem_follow
  runningAt b := by
    simp only [runningAt, Happening.isActivation, countP_append, countP_follow,
      Option.isNone_some, Bool.and_false, Bool.false_eq_true, if_false, Nat.add_zero]
  addressed e' he' := by
    rw [append_nil] at he'
    exact hs.addressed e' (mem_of_mem_eraseIdx he')
  pendingFor t _ := by
    have := countP_eraseIdx he fun e => e.activity.chain = t.post_
    simp only [pendingFor, Happening.isDispatch, append_nil, Option.isSome_some, Bool.and_true]
    omega
  pendingFrom notify := by
    refine le_trans (le_of_eq ?_) (Nat.le_add_right _ _)
    simp only [append_nil]
    exact (countP_eraseIdx he _).symm

theorem Orderly.dispatch_post (hs : s.Orderly) (ht : t ∈ s.terms) (hchain : e.activity.chain = t.post_) (now : Int)
    (completed : Bool) : s.mem.dispatch e now completed = (.of .PASS, s.mem) := by
  obtain ⟨_, _, _, _, hchained⟩ := hs.wired.term t ht
  obtain ⟨timeWindow, hpost⟩ := hchained.is_post
  obtain ⟨⟨verb, next⟩, hact, hfixed⟩ := Option.map_eq_some_iff.mp hpost
  cases verb <;> cases hfixed
  simp only [Memory.dispatch, hchain, hact]

theorem Orderly.dispatch_gate (hs : s.Orderly) (ht : s.terms[i]? = some t)
    (hchain : e.activity.chain = t.gate_) (now : Int)
    (completed : Bool) : ∃ c, s.Gated i t c ∧ s.mem.dispatch e now completed =
      (.of (c.receiveGateNotification now).1,
        s.mem.setVerb t.gate_ (.GATE (c.receiveGateNotification now).2)) := by
  obtain ⟨c, hmem, -, hgated⟩ := hs.exists_gated ht
  refine ⟨c, hgated, ?_⟩
  simp only [Memory.dispatch, hchain, hmem]

theorem Orderly.not_invoke (hs : s.Orderly) (he : s.Addressed e)
    (ht : t ∈ s.terms) : e.activity.chain ≠ t.invoke_ := by
  intro heq
  obtain ⟨_, _, _, _, hchained⟩ := hs.wired.term t ht
  obtain ⟨_, _, hinvoke⟩ := hchained.is_invoke
  rcases he with ⟨-, t', ht', hchain⟩ | ⟨l, -, -, t', ht', hchain⟩
  · obtain ⟨_, _, _, _, hchained'⟩ := hs.wired.term t' ht'
    obtain ⟨_, hpost⟩ := hchained'.is_post
    rw [← hchain, heq, hinvoke] at hpost
    cases hpost
  · obtain ⟨_, _, _, _, hchained'⟩ := hs.wired.term t' (mem_of_getElem? ht')
    have hgate := hchained'.is_gate
    rw [← hchain, heq, hinvoke] at hgate
    cases hgate

variable {completed : Bool}

/-- Dispatching an event is orderly. -/
theorem Orderly.dispatch (hs : s.Orderly) {event : Nat} {now : SchedTime}
    (hstep : s.step (.dispatch event now completed) = some s') : s'.Orderly := by
  simp only [Execution.step, Option.bind_eq_bind, Option.bind_eq_some_iff, Option.some.injEq]
    at hstep
  obtain ⟨e, he, rfl⟩ := hstep
  have haddressed := hs.addressed e (mem_of_getElem? he)
  have hinvoke : ∀ t ∈ s.terms, e.activity.chain = t.invoke_ → 1 ≤ s.passings t.gate_ :=
    fun t ht heq => absurd heq (hs.not_invoke haddressed ht)
  rcases haddressed with ⟨hsource, t, ht, hchain⟩ | ⟨l, hl, hsource, t, ht, hchain⟩
  · -- a Term gets started
    rw [hs.dispatch_post ht hchain]
    have hh := hs.happens_dispatch he rfl rfl rfl .PASS
    refine hs.happens hh (fun j t' c ht' hc => ?_) hinvoke
    refine (hs.gate j t' c ht' hc).elsewhere hh ?_ fun l' hl' _ => ?_
    · intro heq
      obtain ⟨_, _, _, _, hchained⟩ := hs.wired.term t ht
      obtain ⟨_, _, _, _, hchained'⟩ := hs.wired.term t' (mem_of_getElem? ht')
      obtain ⟨_, hpost⟩ := hchained.is_post
      have hgate := hchained'.is_gate
      rw [← heq, hchain, hpost] at hgate
      cases hgate
    · simp [Happening.isReceipt, hsource]
  · -- a Gate is notified
    obtain ⟨c, hgated, hdispatch⟩ := hs.dispatch_gate ht hchain now completed
    obtain ⟨_, _, _, _, hchained⟩ := hs.wired.term t (mem_of_getElem? ht)
    have hlt := Memory.lt_of_verb? hchained.is_gate
    have hverb : (s.mem.setVerb t.gate_ (.GATE (c.receiveGateNotification now).2)).verb? =
        s.mem.verb? := by
      rw [Memory.verb?_setVerb _ hlt, Function.update_eq_iff]
      exact ⟨hchained.is_gate.symm, fun _ _ => rfl⟩
    have hh := hs.happens_dispatch he Memory.length_setVerb Memory.next_setVerb hverb
      (c.receiveGateNotification now).1
    rw [hdispatch]
    refine hs.happens hh (fun j t' c' ht' hc' => ?_) hinvoke
    have hcondition := Memory.condition?_setVerb (.GATE (c.receiveGateNotification now).2) hlt
    have hreceipt : ∀ notify, Happening.isReceipt notify ⟨e.activity.chain, some e, none,
        (c.receiveGateNotification now).1⟩ = true ↔ l.notify = notify := by
      intro notify
      simp [Happening.isReceipt, hsource]
    by_cases hj : l.succ = j
    · -- this Gate counts down
      subst hj
      obtain rfl : t = t' := Option.some.inj (ht.symm.trans ht')
      rw [hcondition, Function.update_self] at hc'
      cases hc'
      refine hgated.receive hs hh rfl hl rfl hreceipt ?_
      have hwaiting : 0 < s.pendingFrom l.notify :=
        countP_pos_iff.mpr ⟨e, mem_of_getElem? he, decide_eq_true hsource⟩
      have := hs.notifyOnce l.notify
      have := hs.notify_once hl
      omega
    · have hne : t'.gate_ ≠ t.gate_ := fun heq => hj (gate_injective hs.wired ht ht' heq.symm)
      rw [hcondition, Function.update_of_ne hne] at hc'
      refine (hs.gate j t' c' ht' hc').elsewhere hh ?_ fun l' hl' hsucc => ?_
      · rw [hchain]
        exact hne.symm
      · rw [Bool.eq_false_iff]
        intro heq
        obtain rfl := link_injective hs.wired hl hl' ((hreceipt _).mp heq)
        exact hj hsucc

/-- What is posted by an Activity of a chain: just a `NOTIFY` posts an event, for its target. -/
theorem posted_activate {mem : Memory} (ha : mem.NotPost a) (rootEvent : ActivationEvent Signal)
    (now : Int) (completed : Bool) : (mem.activate a rootEvent now completed).posted = [] ∨ ∃ target timing e,
    mem.verb? a = some (.NOTIFY (some target) timing) ∧ (mem.activate a rootEvent now completed).posted = [e] ∧
    (mem.activate a rootEvent now completed).res = .PASS ∧ e.activity = ⟨target, some a⟩ := by
  cases hmem : mem[a]? with
  | none => exact .inl (by simp only [Memory.activate, hmem]; rfl)
  | some act =>
    obtain ⟨verb, next⟩ := act
    have hverb : mem.verb? a = some verb.fixed := by
      rw [Memory.verb?, hmem]
      rfl
    cases verb with
    | NOTIFY target timing =>
      cases target with
      | none => exact .inl (by simp only [Memory.activate, hmem]; rfl)
      | some target =>
        simp only [Memory.activate, hmem, Memory.postNotify, Memory.post]
        cases mem[target]? with
        | none => exact .inl rfl
        | some chain =>
          simp only
          split
          · exact .inr ⟨target, timing, _, hverb, rfl, rfl, rfl⟩
          · exact .inl rfl
    | POST timeWindow => exact absurd hverb (ha timeWindow)
    | INVOKE task time =>
      left
      simp only [Memory.activate, hmem, Memory.invokeFunktor]
      split <;> rfl
    | WORKSTART | WORKSTOP | GATE | FEED | TICK =>
      exact .inl (by simp only [Memory.activate, hmem]; rfl)

/-- An Activity performed as part of a chain makes it proceed, and may post an event. -/
theorem Orderly.happens_activate (hs : s.Orderly) {active : ActiveChain}
    (hactive : s.running[i]? = some active) {now : Int} {effect : Activation}
    (heffect : s.mem.activate active.chain active.rootEvent now completed = effect) :
    Happens s ⟨active.chain, none, effect.job, effect.res⟩ { s with
      pending := s.pending ++ effect.posted
      running := s.running.eraseIdx i ++ s.follow active.chain active.rootEvent effect.res
      trace := s.trace ++ [⟨active.chain, none, effect.job, effect.res⟩] } := by
  have hmem := mem_of_getElem? hactive
  obtain ⟨before, hlink⟩ := hs.running active hmem
  have hposted := posted_activate (fun timeWindow => hs.wired.not_post _ _ timeWindow hlink)
    active.rootEvent now completed
  rw [heffect] at hposted
  -- what is posted is a notification for another Term
  have hevents : ∀ e ∈ effect.posted, ∃ l ∈ s.links, active.chain = l.notify ∧
      e.activity.source = some l.notify ∧
      ∃ t, s.terms[l.succ]? = some t ∧ e.activity.chain = t.gate_ := by
    intro e he
    rcases hposted with hnone | ⟨target, timing, e', hverb, hsome, -, he'⟩
    · rw [hnone] at he
      cases he
    · rw [hsome, mem_singleton] at he
      obtain ⟨l, hl, hnotify⟩ := hs.wired.notify _ _ _ hverb
      obtain ⟨_, t, _, -, ht, hverb', -⟩ := hs.wired.link l hl
      rw [hnotify, hverb] at hverb'
      cases hverb'
      rw [he, he']
      exact ⟨l, hl, hnotify.symm, by rw [hnotify], t, ht, rfl⟩
  constructor
  case terms | links | posted | length | next | verb | trace => rfl
  case started =>
    intro hquiet
    rw [(hs.quiet hquiet).2.1] at hactive
    cases hactive
  case activated => exact fun _ => ⟨before, hlink⟩
  case dispatched => nofun
  case running =>
    intro r hr
    rcases mem_append.mp hr with hr | hr
    · exact .inl (mem_of_mem_eraseIdx hr)
    · exact .inr (linked_of_mem_follow hr)
  case runningAt =>
    intro b
    have := countP_eraseIdx hactive fun r => r.chain = b
    simp only [runningAt, Happening.isActivation, countP_append, countP_follow,
      Option.isNone_none, Bool.and_true]
    omega
  case addressed =>
    intro e he
    rcases mem_append.mp he with he | he
    · exact hs.addressed e he
    · obtain ⟨l, hl, -, hsource, ht⟩ := hevents e he
      exact .inr ⟨l, hl, hsource, ht⟩
  case pendingFor =>
    intro t ht
    have hnone : effect.posted.countP (fun e => e.activity.chain = t.post_) = 0 := by
      refine countP_eq_zero.mpr fun e he => ?_
      obtain ⟨l, -, -, -, t', ht', hchain⟩ := hevents e he
      obtain ⟨_, _, _, _, hchained⟩ := hs.wired.term t ht
      obtain ⟨_, _, _, _, hchained'⟩ := hs.wired.term t' (mem_of_getElem? ht')
      obtain ⟨timeWindow, hpost⟩ := hchained.is_post
      rw [hchain, decide_eq_true_eq]
      exact fun heq => hchained'.notPost_gate timeWindow (heq ▸ hpost)
    simp [pendingFor, Happening.isDispatch, hnone]
  case pendingFrom =>
    intro notify
    simp only [pendingFrom, Happening.isReceipt, Happening.isPassing, countP_append]
    rcases hposted with hnone | ⟨target, timing, e, hverb, hsome, hres, he⟩
    · simp [hnone]
    · rw [hsome, countP_singleton, he, hres]
      simp

/-- Performing the next Activity of a chain is orderly. -/
theorem Orderly.activate (hs : s.Orderly) {chain : Nat} {now : SchedTime}
    (hstep : s.step (.activate chain now completed) = some s') : s'.Orderly := by
  simp only [Execution.step, Option.bind_eq_bind, Option.bind_eq_some_iff, Option.some.injEq]
    at hstep
  obtain ⟨active, hactive, rfl⟩ := hstep
  generalize heffect : s.mem.activate active.chain active.rootEvent now completed = effect
  have hh := hs.happens_activate hactive heffect
  have hrunning : 1 ≤ s.runningAt active.chain :=
    countP_pos_iff.mpr ⟨active, mem_of_getElem? hactive, decide_eq_true rfl⟩
  refine hs.happens hh (fun j t c ht hc => ?_) fun t ht hinvoke => ?_
  · by_cases hgate : active.chain = t.gate_
    · -- the Gate is probed
      obtain ⟨c', hmem, hc', hgated⟩ := hs.exists_gated ht
      obtain rfl := Option.some.inj (hc.symm.trans hc')
      refine hgated.probe hs ht hh now rfl ?_ (hgate ▸ hrunning)
      rw [← heffect, Memory.activate, hgate, hmem]
      rfl
    · exact (hs.gate j t c ht hc).elsewhere hh hgate fun _ _ _ => rfl
  · have := hs.gate_passed ht
    rw [← show active.chain = t.invoke_ from hinvoke] at this
    omega

/-! ## Whole runs -/

/-- Each step is orderly, when all Terms are wired up beforehand. -/
theorem Orderly.step (hs : s.Orderly) {op : ExecutionOp} (hop : s.WiredBeforehand op)
    (hstep : s.step op = some s') : s'.Orderly := by
  cases op with
  | buildCalculationJob job start dead =>
    simp only [Execution.step, Memory.buildCalculationJob_eq, Option.bind_eq_bind,
      Option.bind_some, Option.some.injEq] at hstep
    subst hstep
    exact hs.buildCalculationJob hop job start dead
  | linkToSuccessor pred succ unlimitedTime =>
    simp only [Execution.step, Option.bind_eq_bind, Option.bind_eq_some_iff, Option.some.injEq]
      at hstep
    obtain ⟨p, hp, t, ht, ⟨notify, mem⟩, happend, rfl⟩ := hstep
    obtain ⟨_, _, _, _, hchained⟩ := hs.wired.term p (mem_of_getElem? hp)
    obtain ⟨_, _, _, _, hchained'⟩ := hs.wired.term t (mem_of_getElem? ht)
    exact hs.linkToSuccessor hop hp ht (Memory.appendNotificationTo_spec happend hs.wired.bounded
      (Memory.lt_of_next hchained.invoke_feed1) hchained'.is_gate)
  | post term start dead manID isCompulsory now =>
    simp only [Execution.step, Option.bind_eq_bind, Option.bind_eq_some_iff,
      Option.ite_none_right_eq_some, Option.some.injEq] at hstep
    obtain ⟨t, ht, act, -, -, rfl⟩ := hstep
    exact hs.post ht hop rfl
  | dispatch event now completed => exact hs.dispatch hstep
  | discard event =>
    simp only [Execution.step, Option.bind_eq_bind, Option.bind_eq_some_iff, Option.some.injEq]
      at hstep
    obtain ⟨e, he, rfl⟩ := hstep
    have hle : ∀ p : ActivationEvent Signal → Bool,
        (s.pending.eraseIdx event).countP p ≤ s.pending.countP p := by
      intro p
      rw [countP_eraseIdx he p]
      exact Nat.le_add_right _ _
    refine { hs with
      quiet := fun hquiet => ?_
      addressed := fun e he => hs.addressed e (mem_of_mem_eraseIdx he)
      postOnce := fun i t ht => (Nat.add_le_add_right (hle _) _).trans (hs.postOnce i t ht)
      notifyOnce := fun notify => (Nat.add_le_add_right (hle _) _).trans (hs.notifyOnce notify)
      gate := fun i t c ht hc => ?_ }
    · rw [(hs.quiet hquiet).1] at he
      cases he
    · have hgated := hs.gate i t c ht hc
      exact ⟨hgated.rest, hgated.once, hgated.complete, hgated.locked⟩
  | activate chain now completed => exact hs.activate hstep

theorem orderly_invariant : (machine.restrict WiredBeforehand).Invariant Orderly where
  init s hs := by
    obtain rfl : s = initial := hs
    exact .of_wired Memory.wired_nil nofun
  step _ _ _ hs hstep := hs.step hstep.1 hstep.2

theorem step_extends {op : ExecutionOp} (hstep : s.step op = some s') :
    s.terms <+: s'.terms ∧ s.trace <+: s'.trace := by
  cases op <;>
    simp only [Execution.step, Option.bind_eq_bind, Option.bind_eq_some_iff,
      Option.ite_none_right_eq_some, Option.some.injEq] at hstep
  case buildCalculationJob =>
    obtain ⟨_, -, rfl⟩ := hstep
    exact ⟨prefix_append _ _, prefix_rfl⟩
  case linkToSuccessor =>
    obtain ⟨_, -, _, -, _, -, rfl⟩ := hstep
    exact ⟨prefix_rfl, prefix_rfl⟩
  case post =>
    obtain ⟨_, -, _, -, -, rfl⟩ := hstep
    exact ⟨prefix_rfl, prefix_rfl⟩
  case discard =>
    obtain ⟨_, -, rfl⟩ := hstep
    exact ⟨prefix_rfl, prefix_rfl⟩
  case dispatch | activate =>
    obtain ⟨_, -, rfl⟩ := hstep
    exact ⟨prefix_rfl, prefix_append _ _⟩

/-- Beyond the Gate, nothing is performed twice. -/
theorem Orderly.performed_once (hs : s.Orderly) (ht : s.terms[i]? = some t)
    (hpath : TransGen (Linked s.mem.next) t.gate_ a) : s.trace.countP (fun h => h.act = a) ≤ 1 := by
  obtain ⟨_, _, _, _, hchained⟩ := hs.wired.term t (mem_of_getElem? ht)
  obtain ⟨c, -, -, hgated⟩ := hs.exists_gated ht
  calc s.trace.countP (fun h => h.act = a) ≤ s.activations a := by
        refine countP_mono_left fun h hmem hact => ?_
        have hinner := hs.wired.inner hpath hchained.notPost_gate
        rw [decide_eq_true_eq] at hact
        simp [Happening.isActivation, hact, hs.not_dispatched hinner hmem hact]
    _ ≤ s.passings t.gate_ := hs.activations_le hpath hchained.notPost_gate
    _ ≤ 1 := hgated.once

/-- **The Gate of a Term.** For all Terms wired up beforehand, and each one posted once, the job is
invoked at most once, and this happens after each predecessor has completed its work and the Gate
received the notification. When the Gate was passed, it is not passed again by anything to come, and
nothing behind the Gate is performed twice. -/
theorem gate_keeps_order (hs : (machine.restrict WiredBeforehand).Reachable s) {i : Nat} {t : Term}
    (ht : s.terms[i]? = some t) :
    s.trace.countP (fun h => h.act = t.invoke_) ≤ 1 ∧
      (∀ before h after, s.trace = before ++ h :: after → h.act = t.invoke_ →
        ∀ l ∈ s.links, l.succ = i → ∀ p, s.terms[l.pred]? = some p →
          s.Completed p before ∧ Received t l.notify before) ∧
      (∀ ops s', (machine.restrict WiredBeforehand).Run s ops s' → 1 ≤ s.passings t.gate_ →
        ∃ later, s'.trace = s.trace ++ later ∧ ∀ h ∈ later, h.isPassing t.gate_ = false) ∧
      ∀ a, TransGen (Linked s.mem.next) t.gate_ a → s.trace.countP (fun h => h.act = a) ≤ 1 := by
  have horderly := orderly_invariant.reachable hs
  obtain ⟨_, _, _, _, hchained⟩ := horderly.wired.term t (mem_of_getElem? ht)
  refine ⟨horderly.performed_once ht ((TransGen.single hchained.gate_start).tail
      hchained.start_invoke), fun before h after heq hact => horderly.order before h after heq i t ht
      hact, fun ops s' hrun hpassed => ?_, fun a hpath => horderly.performed_once ht hpath⟩
  have hextends : s.terms <+: s'.terms ∧ s.trace <+: s'.trace :=
    hrun.keeps (P := fun u => s.terms <+: u.terms ∧ s.trace <+: u.trace)
      (fun u op u' hu hstep => (step_extends hstep.2).imp hu.1.trans hu.2.trans)
      ⟨prefix_rfl, prefix_rfl⟩
  obtain ⟨⟨more, hterms⟩, later, htrace⟩ := hextends
  refine ⟨later, htrace.symm, fun h hmem => ?_⟩
  have ht' : s'.terms[i]? = some t := by
    rw [← hterms, List.getElem?_append_left (List.getElem?_eq_some_iff.mp ht).1]
    exact ht
  obtain ⟨c, -, -, hgated⟩ := (orderly_invariant.reachable (hs.run hrun)).exists_gated ht'
  have honce := hgated.once
  rw [passings, ← htrace, countP_append] at honce
  rw [passings] at hpassed
  have hnone : later.countP (·.isPassing t.gate_) = 0 := by omega
  exact Bool.eq_false_iff.mpr (countP_eq_zero.mp hnone h hmem)

/-- Two jobs, where the second one is posted first, yet has to wait for the other one. -/
theorem gate_keeps_order_reversed :
    ∃ s : Execution, s.terms[1]? = some ⟨9, 10, 11⟩ ∧
      s.trace.countP (fun h => h.act = 9) = 1 ∧ s.links = [⟨0, 1, 14⟩] ∧
      ∀ before h after, s.trace = before ++ h :: after → h.act = 9 →
        ∀ l ∈ s.links, l.succ = 1 → ∀ p, s.terms[l.pred]? = some p →
          s.Completed p before ∧ Received ⟨9, 10, 11⟩ l.notify before := by
  obtain ⟨s, hreach, hs⟩ := Machine.exists_restrict_reachable_of_exec WiredBeforehand step initial
    ([.buildCalculationJob ⟨1, 0, 0, 0⟩ 100 1000, .buildCalculationJob ⟨2, 0, 0, 0⟩ 100 1000,
      .linkToSuccessor 0 1 false, .post 1 100 1000 0 false 100,
      .dispatch 0 100 true, .activate 0 100 true,
      .post 0 100 1000 0 false 100, .dispatch 0 100 true] ++
      List.replicate 7 (.activate 0 100 true) ++
      [.dispatch 0 100 true, .activate 0 100 true, .activate 0 100 true])
    (fun s => s.terms[1]? == some ⟨9, 10, 11⟩ && (s.trace.countP (fun h => h.act = 9) == 1 &&
      s.links == [⟨0, 1, 14⟩])) (by decide)
  simp only [Bool.and_eq_true, beq_iff_eq] at hs
  exact ⟨s, hs.1, hs.2.1, hs.2.2, (gate_keeps_order hreach hs.1).2.1⟩

end Execution

end Lumiera.Vault.Gear
