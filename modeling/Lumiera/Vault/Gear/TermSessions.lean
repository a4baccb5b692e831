import Lumiera.Vault.Gear.TermChains
import Lumiera.Vault.Gear.TermWiring

/-! # Builder operations in any order (`vault/gear/activity-term.hpp`)

Starting without any Term, the builder operations can be called in any order, for several Terms of
all kinds. In each session reached, the chains of the Terms are laid out according to the calls
recorded. -/

namespace Lumiera.Vault.Gear.TermBuilder

open List

/-! ## Setting up a Term -/

/-- The Activities for a planning job. -/
def metaChain (base : Addr) (job : Job) (start dead : Int) : List Activity :=
  Memory.invocation base job ++ [⟨.POST ⟨start, dead⟩, some (base + 2)⟩]

/-- The Activities for an asynchronous job, where the chain is severed behind the second `FEED`. -/
def loadChain (base : Addr) (job : Job) (start dead : Int) : List Activity :=
  [⟨.FEED job.w1 job.w2, some (base + 1)⟩,
   ⟨.FEED 0 0, none⟩,
   ⟨.INVOKE job.jobClosure job.nominalTime, some (base + 0)⟩,
   ⟨.POST ⟨start, dead⟩, some (base + 4)⟩,
   ⟨.WORKSTART, some (base + 2)⟩,
   ⟨.WORKSTOP, none⟩]

/-- The Activities allocated for each kind of job. -/
def allocated (kind : Template) (base : Addr) (job : Job) (start dead : Int) : List Activity :=
  match kind with
  | .CALC_JOB => Memory.jobChain base job start dead
  | .LOAD_JOB => loadChain base job start dead
  | .META_JOB => metaChain base job start dead

/-- The layout of a new Term. -/
def fresh (kind : Template) (base : Addr) : Layout :=
  match kind with
  | .CALC_JOB =>
    { kind, term := ⟨base + 2, base + 3, some (base + 4), none⟩, body :=
    [base + 5, base + 2, base + 0, base + 1, base + 6] }
  | .LOAD_JOB =>
    { kind, term := ⟨base + 2, base + 3, none, some (base + 5)⟩, body :=
    [base + 4, base + 2, base + 0, base + 1],
      async := [base + 5] }
  | .META_JOB => { kind, term := ⟨base + 2, base + 3, none, none⟩, body := [base + 2, base + 0, base + 1] }

section Construct

variable (mem : Memory) (job : Job) (start dead : Int)

/-- The work bracket around the invocation, without a Gate. -/
theorem insertWorkBracket_load :
    Memory.insertWorkBracket (mem ++ metaChain mem.length job start dead) (mem.length + 3) =
      some (mem ++ (loadChain mem.length job start dead).set 1 ⟨.FEED 0 0, some (mem.length + 5)⟩) := by
  -- the Activities before the end of processing is marked
  obtain ⟨l, hl⟩ : ∃ l : Memory, l = loadChain mem.length job start dead := ⟨_, rfl⟩
  have htail : Memory.findTail (mem ++ l) (mem ++ l).length (mem.length + 2) = some (mem.length + 1) := by
    have hlength : (mem ++ l).length = mem.length + 3 + 1 + 1 + 1 := by
      rw [length_append, hl]
      rfl
    rw [hlength, Memory.findTail_step l _ _ 0 (by rw [hl]; rfl),
      Memory.findTail_step l _ _ 1 (by rw [hl]; rfl),
      Memory.findTail_end l _ _ (by rw [hl]; rfl)]
  have hnext : Memory.next (mem ++ l) (mem.length + 4) = some (mem.length + 2) := by
    rw [Memory.next_block, hl]
    rfl
  have hinsert : Memory.insert (mem ++ l) (mem.length + 1) (mem.length + 5) =
      mem ++ (loadChain mem.length job start dead).set 1 ⟨.FEED 0 0, some (mem.length + 5)⟩ := by
    rw [Memory.insert_block, hl]
    rfl
  have hbracket : Memory.insert (mem ++
      (metaChain mem.length job start dead ++ [⟨.WORKSTART, none⟩] ++ [⟨.WORKSTOP, none⟩]))
      (mem.length + 3) (mem.length + 4) = mem ++ l := by
    rw [Memory.insert_block, hl]
    rfl
  have hunfold : Memory.insertWorkBracket (mem ++ metaChain mem.length job start dead) (mem.length + 3) = (do
        let tail ← Memory.findTail (mem ++ l) (mem ++ l).length (← Memory.next (mem ++ l) (mem.length + 4))
        some (Memory.insert (mem ++ l) tail (mem.length + 5))) := by
    rw [← hbracket]
    simp only [Memory.insertWorkBracket, Memory.create_block]
    rfl
  rw [hunfold, hnext, Option.bind_eq_bind, Option.bind_some, htail]
  exact congrArg some hinsert

/-- What is set up for each kind of job. -/
theorem construct_eq (kind : Template) :
    Term.construct kind start dead job mem =
      some ((fresh kind mem.length).term, mem ++ allocated kind mem.length job start dead) := by
  have hdef : Term.construct kind start dead job mem = Term.configureTemplate
      { invoke_ := mem.length + 2, post_ := mem.length + 3 } kind
      (mem ++ metaChain mem.length job start dead) := by
    simp only [Term.construct, Memory.setupInvocation_eq, Memory.setupPost_eq]
    rfl
  rw [hdef]
  cases kind with
  | META_JOB => rfl
  | CALC_JOB =>
    have hgate := Memory.setupGate_eq mem job start dead
    have hbracket := Memory.insertWorkBracket_eq mem job start dead
    have hsetup : Term.setupGate { invoke_ := mem.length + 2, post_ := mem.length + 3 }
        (mem ++ metaChain mem.length job start dead) =
        some (⟨mem.length + 2, mem.length + 3, some (mem.length + 4), none⟩,
          mem ++ Memory.gatedInvocation mem.length job start dead) :=
            Option.map_eq_some_iff.mpr ⟨_, hgate, rfl⟩
    rw [Term.configureTemplate]
    rw [hsetup]
    exact Option.map_eq_some_iff.mpr ⟨_, hbracket, rfl⟩
  | LOAD_JOB =>
    have hbracket := insertWorkBracket_load mem job start dead
    obtain ⟨l, hl⟩ : ∃ l : Memory, l = (loadChain mem.length job start dead).set 1
        ⟨.FEED 0 0, some (mem.length + 5)⟩ :=
      ⟨_, rfl⟩
    rw [← hl] at hbracket
    have hwork : Term.insertWorkBracket { invoke_ := mem.length + 2, post_ := mem.length + 3 }
        (mem ++ metaChain mem.length job start dead) =
        some ({ invoke_ := mem.length + 2, post_ := mem.length + 3 }, mem ++ l) :=
      Option.map_eq_some_iff.mpr ⟨_, hbracket, rfl⟩
    have hfeed1 : Memory.next (mem ++ l) (mem.length + 2) = some (mem.length + 0) := by
      rw [Memory.next_block, hl]
      rfl
    have hcut : Memory.next (mem ++ l) (mem.length + 0) = some (mem.length + 1) := by
      rw [Memory.next_block, hl]
      rfl
    have hcallback : Memory.next (mem ++ l) (mem.length + 1) = some (mem.length + 5) := by
      rw [Memory.next_block, hl]
      rfl
    have htag : tag? (mem ++ l) (mem.length + 1) = some .FEED := by
      rw [tag?_block, hl]
      rfl
    rw [Term.configureTemplate]
    dsimp only
    rw [hwork, Option.bind_some, Term.severAsyncChain]
    simp only [Option.isSome_none, Bool.false_eq_true, if_false, hfeed1, Option.bind_eq_bind,
      Option.bind_some, hcut,
      htag, if_true, hcallback, Memory.setNext_block]
    rw [hl]
    rfl

theorem valid_fresh (kind : Template) :
    (fresh kind mem.length).Valid (mem ++ allocated kind mem.length job start dead) := by
  cases kind with
  | CALC_JOB =>
    have htag : ∀ k, tag? (mem ++ Memory.jobChain mem.length job start dead) (mem.length + k) =
        tag? (Memory.jobChain mem.length job start dead) k := tag?_block _
    refine ⟨htag 3, ⟨htag 4, ⟨0, dead⟩, condition?_block _ 4, rfl⟩, ?_, rfl, ⟨by simp [fresh], htag 2⟩, rfl,
      by simp [fresh], by simp [fresh]⟩
    simp only [fresh, map_cons, allocated, htag]
    rfl
  | LOAD_JOB =>
    have htag : ∀ k, tag? (mem ++ loadChain mem.length job start dead) (mem.length + k) =
        tag? (loadChain mem.length job start dead) k := tag?_block _
    refine ⟨htag 3, ⟨by simp [fresh], rfl, rfl⟩, ?_, ?_, ⟨by simp [fresh], htag 2⟩,
      rfl, by simp [fresh], by simp [fresh]⟩
    · simp only [fresh, map_cons, allocated, htag]
      rfl
    · simp only [fresh, map_cons, allocated, htag]
      rfl
  | META_JOB =>
    have htag : ∀ k, tag? (mem ++ metaChain mem.length job start dead) (mem.length + k) =
        tag? (metaChain mem.length job start dead) k := tag?_block _
    refine ⟨htag 3, ⟨by simp [fresh], rfl, rfl⟩, ?_, rfl, ⟨by simp [fresh], htag 2⟩,
      rfl, by simp [fresh], by simp [fresh]⟩
    simp only [fresh, map_cons, allocated, htag]
    rfl

/-- The chains of a new Term, by position. -/
def positions : Template → List (List ℕ)
  | .CALC_JOB => [[3, 4, 5, 2, 0, 1, 6]]
  | .LOAD_JOB => [[3, 4, 2, 0, 1], [5]]
  | .META_JOB => [[3, 2, 0, 1]]

theorem chains_fresh (kind : Template) (base : Addr) :
    (fresh kind base).chains = (positions kind).map (List.map (base + ·)) := by
  cases kind <;> rfl

theorem flatten_fresh (kind : Template) (base : Addr) :
    (fresh kind base).chains.flatten = (positions kind).flatten.map (base + ·) := by
  rw [chains_fresh, map_flatten]

theorem threaded_fresh (kind : Template) :
    Threaded (Memory.next (mem ++ allocated kind mem.length job start dead))
      (fresh kind mem.length).chains where
  linked := by
    cases kind with
    | CALC_JOB =>
      have hnext : ∀ k, Memory.next (mem ++ Memory.jobChain mem.length job start dead) (mem.length + k) =
          Memory.next (Memory.jobChain mem.length job start dead) k := Memory.next_block _
      exact forall_mem_singleton.mpr ⟨hnext 3, hnext 4, hnext 5, hnext 2, hnext 0, hnext 1,
        hnext 6, trivial⟩
    | LOAD_JOB =>
      have hnext : ∀ k, Memory.next (mem ++ loadChain mem.length job start dead) (mem.length + k) =
          Memory.next (loadChain mem.length job start dead) k := Memory.next_block _
      refine forall_mem_cons.mpr ⟨⟨hnext 3, hnext 4, hnext 2, hnext 0, hnext 1, trivial⟩, ?_⟩
      exact forall_mem_singleton.mpr ⟨hnext 5, trivial⟩
    | META_JOB =>
      have hnext : ∀ k, Memory.next (mem ++ metaChain mem.length job start dead) (mem.length + k) =
          Memory.next (metaChain mem.length job start dead) k := Memory.next_block _
      exact forall_mem_singleton.mpr ⟨hnext 3, hnext 2, hnext 0, hnext 1, trivial⟩
  nodup := by
    rw [flatten_fresh]
    refine List.Nodup.map (fun _ _ heq => Nat.add_left_cancel heq) ?_
    cases kind <;> decide

/-- A new Term does not affect the other ones. -/
theorem consistent_construct {built : List Layout} (h : Consistent mem built) (kind : Template) :
    Consistent (mem ++ allocated kind mem.length job start dead) (built ++ [fresh kind mem.length]) := by
  have hold : Consistent (mem ++ allocated kind mem.length job start dead) built := by
    refine h.frame ?_ ?_ ?_
    · exact fun x hx => Memory.next_append_left (h.lt_of_owned hx)
    · exact fun x hx => tag?_append_left (h.lt_of_owned hx)
    · exact fun x hx => condition?_append_left (h.lt_of_owned hx)
  have hnew : ∀ x ∈ (fresh kind mem.length).chains.flatten, x ∉ owned built := by
    intro x hx hmem
    rw [flatten_fresh] at hx
    obtain ⟨k, -, rfl⟩ := mem_map.mp hx
    exact absurd (h.lt_of_owned hmem) (Nat.not_lt.mpr (Nat.le_add_right _ _))
  refine ⟨?_, fun b hb => ?_⟩
  · rw [flatMap_append, flatMap_cons, flatMap_nil, append_nil]
    exact hold.threaded.append (threaded_fresh mem job start dead kind) hnew
  · rcases mem_append.mp hb with hb | hb
    · exact hold.valid b hb
    · rw [mem_singleton.mp hb]
      exact valid_fresh mem job start dead kind

end Construct

/-! ## One builder operation -/

/-- **The session is laid out** according to the calls recorded. -/
structure Session.LaidOut (s : Session) (built : List Layout) : Prop where
  terms : s.terms = built.map Layout.term
  calls : s.calls = built.map Layout.calls
  consistent : Consistent s.mem built

/-- The Terms exist, and the argument is a `NOTIFY`. -/
def Session.Admissible (s : Session) : Operation → Prop
  | .construct .. => True
  | .createNotify => True
  | .expectNotification i notificationSrc _ => i < s.terms.length ∧ tag? s.mem notificationSrc = some .NOTIFY
  | .appendNotificationTo i j _ => i < s.terms.length ∧ j < s.terms.length
  | .requireDirectActivation i => i < s.terms.length

namespace Session.LaidOut

variable {s : Session} {built : List Layout} {i j : ℕ} {unlimitedTime : Bool}

theorem exists_layout (h : s.LaidOut built) (hi : i < s.terms.length) :
    ∃ pre b post, built = pre ++ b :: post ∧ i = pre.length ∧ s.terms[i]? = some b.term := by
  rw [h.terms, length_map] at hi
  refine ⟨built.take i, built[i], built.drop (i + 1), ?_, ?_, ?_⟩
  · rw [← drop_eq_getElem_cons hi, take_append_drop]
  · rw [length_take, min_eq_left hi.le]
  · rw [h.terms, getElem?_map, getElem?_eq_getElem hi, Option.map_some]

theorem set_middle {α : Type*} (pre post : List α) (b b' : α) :
    (pre ++ b :: post).set pre.length b' = pre ++ b' :: post := by
  simp

theorem modify_middle {α : Type*} (pre post : List α) (b : α) (f : α → α) :
    (pre ++ b :: post).modify pre.length f = pre ++ f b :: post := by
  induction pre with
  | nil => rfl
  | cons a pre ih => exact congrArg (a :: ·) ih

theorem update {pre post : List Layout} {b b' : Layout} (h : s.LaidOut (pre ++ b :: post)) {mem' : Memory}
    {f : Calls → Calls} (hcalls : b'.calls = f b.calls) (hmem : Consistent mem' (pre ++ b' :: post)) :
    Session.LaidOut ⟨mem', s.terms.set pre.length b'.term, s.calls.modify pre.length f⟩
      (pre ++ b' :: post) where
  terms := by
    have hlength : pre.length = (pre.map Layout.term).length := (length_map _).symm
    rw [h.terms, map_append, map_cons, map_append, map_cons, hlength, set_middle]
  calls := by
    have hlength : pre.length = (pre.map Layout.calls).length := (length_map _).symm
    rw [h.calls, map_append, map_cons, map_append, map_cons, hlength,
      modify_middle, hcalls]
  consistent := hmem

theorem createNotify {mem : Memory} (h : Consistent mem built) : Consistent (Term.createNotify mem).2 built ∧
    tag? (Term.createNotify mem).2 mem.length = some .NOTIFY ∧ mem.length ∉ owned built := by
  refine ⟨h.frame ?_ ?_ ?_, tag?_block [⟨.NOTIFY none 0, none⟩] 0, ?_⟩
  · exact fun x hx => Memory.next_append_left (h.lt_of_owned hx)
  · exact fun x hx => tag?_append_left (h.lt_of_owned hx)
  · exact fun x hx => condition?_append_left (h.lt_of_owned hx)
  · exact fun hmem => Nat.lt_irrefl _ (h.lt_of_owned hmem)

/-- Whatever is admissible can be performed, and the session is laid out again. -/
theorem step (h : s.LaidOut built) {op : Operation} (hop : s.Admissible op) :
    ∃ s' built', s.step op = some s' ∧ s'.LaidOut built' := by
  cases op with
  | construct kind start dead job =>
    refine ⟨⟨s.mem ++ allocated kind s.mem.length job start dead,
      s.terms ++ [(fresh kind s.mem.length).term],
      s.calls ++ [({ kind } : Calls)]⟩, built ++ [fresh kind s.mem.length], ?_, ?_⟩
    · rw [Session.step, construct_eq]
      rfl
    · refine ⟨?_, ?_, consistent_construct s.mem job start dead h.consistent kind⟩
      · rw [map_append, ← h.terms]
        rfl
      · rw [map_append, ← h.calls]
        cases kind <;> rfl
  | createNotify =>
    obtain ⟨hcons, -, -⟩ := createNotify h.consistent
    exact ⟨_, built, rfl, h.terms, h.calls, hcons⟩
  | expectNotification i notificationSrc unlimitedTime =>
    obtain ⟨hi, hsrc⟩ := hop
    obtain ⟨pre, b, post, rfl, rfl, hterm⟩ := h.exists_layout hi
    obtain ⟨gate, mem', hexpect, hcons, -⟩ := h.consistent.expectNotification hsrc unlimitedTime
    have hupdate := h.update (show _ = Calls.expect b.calls from rfl) hcons
    refine ⟨_, _, ?_, hupdate⟩
    simp only [Session.step, hterm, Option.bind_eq_bind, Option.bind_some, hexpect]
  | appendNotificationTo i j unlimitedTime =>
    obtain ⟨hi, hj⟩ := hop
    obtain ⟨pre, b, post, rfl, rfl, hterm⟩ := h.exists_layout hi
    obtain ⟨hcons₁, htag, hnew⟩ := createNotify h.consistent
    obtain ⟨tail, htail, hcons₂⟩ := hcons₁.appendToTail htag hnew
    -- the notification is linked, and the other Term is unchanged so far
    have hmid : Session.LaidOut ⟨(Term.createNotify s.mem).2.insert tail s.mem.length, s.terms,
        s.calls.modify pre.length (Calls.append s.mem.length)⟩
          (pre ++ { b with outgoing := b.outgoing ++ [s.mem.length] } :: post) := by
      have hupdate := h.update (show _ = Calls.append s.mem.length b.calls from rfl) hcons₂
      refine ⟨?_, hupdate.calls, hcons₂⟩
      rw [h.terms]
      simp
    obtain ⟨pre', c, post', hsplit, rfl, htarget⟩ := hmid.exists_layout hj
    rw [hsplit] at hmid
    have htag₂ : tag? ((Term.createNotify s.mem).2.insert tail s.mem.length) s.mem.length =
        some .NOTIFY := by
      rw [tag?_insert, htag]
    obtain ⟨gate, mem', hexpect, hcons₃, -⟩ := hmid.consistent.expectNotification htag₂ unlimitedTime
    have hupdate := hmid.update (show _ = Calls.expect c.calls from rfl) hcons₃
    refine ⟨_, _, ?_, hupdate⟩
    have htail' : b.term.appendToTail (Term.createNotify s.mem).1 (Term.createNotify s.mem).2 =
        some ((Term.createNotify s.mem).2.insert tail s.mem.length) := htail
    have hexpect' : c.term.expectNotification (Term.createNotify s.mem).1 unlimitedTime
        ((Term.createNotify s.mem).2.insert tail s.mem.length) = _ := hexpect
    simp only [Session.step, hterm, Option.bind_eq_bind, Option.bind_some, htail', htarget, hexpect']
    rfl
  | requireDirectActivation i =>
    obtain ⟨pre, b, post, rfl, rfl, hterm⟩ := h.exists_layout hop
    obtain ⟨hcons₁, htag, hnew⟩ := createNotify h.consistent
    obtain ⟨gate, mem', hexpect, hcons₂, hext⟩ := hcons₁.expectNotification htag false
    have hnew' : s.mem.length ∉ owned (pre ++ Consistent.gated b gate :: post) :=
      hext.not_owned (lt_of_tag? htag) hnew
    have htag' : tag? mem' s.mem.length = some .NOTIFY := (hext.tag _ (lt_of_tag? htag)).trans htag
    have hsame : owned (pre ++ { Consistent.gated b gate with expected := b.expected + 1 } :: post) =
        owned (pre ++ Consistent.gated b gate :: post) := by
      rw [owned, owned, Consistent.flatMap_middle, Consistent.flatMap_middle]
      rfl
    have hcons₃ := Consistent.insertTrigger (b := Consistent.gated b gate) hcons₂ htag' (hsame ▸ hnew')
    have hupdate := h.update (show _ = Calls.require s.mem.length b.calls from rfl) hcons₃
    refine ⟨_, _, ?_, hupdate⟩
    have hrequire : b.term.requireDirectActivation s.mem =
        some ((Consistent.gated b gate).term, mem'.insert b.term.post_ s.mem.length) :=
      Option.map_eq_some_iff.mpr ⟨_, hexpect, rfl⟩
    simp only [Session.step, hterm, Option.bind_eq_bind, Option.bind_some, hrequire]
    rfl

end Session.LaidOut

end Lumiera.Vault.Gear.TermBuilder
