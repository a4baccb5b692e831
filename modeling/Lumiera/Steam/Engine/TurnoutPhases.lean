import Lumiera.Steam.Engine.Turnout

/-! # What each phase of weaving does

An evaluation **keeps** everything there was before: the chain of parameters, the buffers of others
and what the log says about them. An exception leaves it **interrupted**: whether all is as before
then depends on the number of the call which raised. The phases of the weaving patterns are
described in these terms, each one by its own theorem. -/

namespace Lumiera.Steam.Engine

open List

open Lib (HeteroData)

universe u v w

variable {ι : Type u} {V : Type v} {P : Type w}

/-! ## The story of a buffer -/

/-- The buffer was released. -/
def WorkingBuffers.Released (w : WorkingBuffers V) (buffer : ℕ) : Prop := .release buffer ∈ w.log

variable {w : WorkingBuffers V}

theorem WorkingBuffers.released_iff {buffer : ℕ} : w.Released buffer ↔ .release buffer ∈ w.story buffer := by
  simp [Released, story, BufferEvent.concerns]

/-- **A buffer which is returned**: locked, written by one function, and emitted. -/
def ReturnedStory (buffer : ℕ) (story : List BufferEvent) : Prop :=
  ∃ type ins outs, buffer ∈ outs ∧ buffer ∉ ins ∧ story = [.lock buffer type, .process ins outs, .emit buffer]

/-- **A buffer which is done with**: locked, written by one function, emitted, possibly read by one
function, and released after that. -/
def CompleteStory (buffer : ℕ) (story : List BufferEvent) : Prop :=
  ∃ type ins outs, buffer ∈ outs ∧ buffer ∉ ins ∧
    (story = [.lock buffer type, .process ins outs, .emit buffer, .release buffer] ∨
      ∃ ins' outs', buffer ∈ ins' ∧ buffer ∉ outs' ∧
        story = [.lock buffer type, .process ins outs, .emit buffer, .process ins' outs', .release buffer])

theorem ReturnedStory.not_released {buffer : ℕ} (h : ReturnedStory buffer (w.story buffer)) :
    ¬ w.Released buffer := by
  obtain ⟨type, ins, outs, -, -, hstory⟩ := h
  rw [WorkingBuffers.released_iff, hstory]
  simp

/-! ## What is kept -/

/-- Where the links of a chain are. -/
def places (blocks : List ℕ) : List (Option ℕ) := none :: blocks.map some

/-- The blocks are chained to the parameters, in stack frames further out. -/
structure Standing (e : Evaluation V P) (frame : ℕ) (blocks : List ℕ) : Prop where
  linked : HeteroData.Linked e.params.next none blocks
  below : ∀ block ∈ blocks, block < frame
  nodup : blocks.Nodup

/-- The parameters in effect. -/
def Evaluation.paramData (e : Evaluation V P) (blocks : List ℕ) : List (List P) :=
  e.params.front :: blocks.map e.params.block

/-- **Everything there was is kept**, save for the given buffer, while no call raises. -/
structure Kept (raisesAt : Option ℕ) (frame : ℕ) (given : Option ℕ) (e e' : Evaluation V P) : Prop where
  provided_le : e.buffers.provided ≤ e'.buffers.provided
  old : ∀ b < e.buffers.provided, given ≠ some b → e'.buffers.state b = e.buffers.state b ∧
    e'.buffers.content b = e.buffers.content b ∧ e'.buffers.story b = e.buffers.story b
  unborn : ∀ b, e'.buffers.provided ≤ b → e'.buffers.story b = e.buffers.story b
  front : e'.params.front = e.params.front
  block : ∀ a < frame, e'.params.block a = e.params.block a
  next : ∀ s, (∀ a, s = some a → a < frame) → e'.params.next s = e.params.next s
  calls_le : e.calls ≤ e'.calls
  quiet : ∀ n, raisesAt = some n → e.calls ≤ n → e'.calls ≤ n

variable {raisesAt : Option ℕ} {frame : ℕ} {given : Option ℕ} {e e' e'' : Evaluation V P} {blocks : List ℕ}

theorem Kept.refl (e : Evaluation V P) : Kept raisesAt frame given e e where
  provided_le := Nat.le_refl _
  old _ _ _ := ⟨rfl, rfl, rfl⟩
  unborn _ _ := rfl
  front := rfl
  block _ _ := rfl
  next _ _ := rfl
  calls_le := Nat.le_refl _
  quiet _ _ h := h

theorem Kept.trans (h : Kept raisesAt frame given e e') (hnext : Kept raisesAt frame given e' e'') :
    Kept raisesAt frame given e e'' where
  provided_le := h.provided_le.trans hnext.provided_le
  old b hb hne := by
    obtain ⟨hstate, hcontent, hstory⟩ := h.old b hb hne
    obtain ⟨hstate', hcontent', hstory'⟩ := hnext.old b (Nat.lt_of_lt_of_le hb h.provided_le) hne
    exact ⟨hstate'.trans hstate, hcontent'.trans hcontent, hstory'.trans hstory⟩
  unborn b hb := (hnext.unborn b hb).trans (h.unborn b (hnext.provided_le.trans hb))
  front := hnext.front.trans h.front
  block a ha := (hnext.block a ha).trans (h.block a ha)
  next s hs := (hnext.next s hs).trans (h.next s hs)
  calls_le := h.calls_le.trans hnext.calls_le
  quiet n hn hle := hnext.quiet n hn (h.quiet n hn hle)

theorem Kept.weaken {outer : ℕ} (h : Kept raisesAt frame none e e') (hle : outer ≤ frame) (given : Option ℕ) :
    Kept raisesAt outer given e e' where
  provided_le := h.provided_le
  old b hb _ := h.old b hb (by simp)
  unborn := h.unborn
  front := h.front
  block a ha := h.block a (Nat.lt_of_lt_of_le ha hle)
  next s hs := h.next s fun a ha => Nat.lt_of_lt_of_le (hs a ha) hle
  calls_le := h.calls_le
  quiet := h.quiet

theorem Standing.place_lt (h : Standing e frame blocks) {s : Option ℕ} (hs : s ∈ places blocks) :
    ∀ a, s = some a → a < frame := by
  rintro a rfl
  simp only [places, mem_cons, reduceCtorEq, mem_map, Option.some.injEq, exists_eq_right,
    false_or] at hs
  exact h.below a hs

theorem Kept.standing (h : Kept raisesAt frame given e e') (hstanding : Standing e frame blocks) :
    Standing e' frame blocks where
  linked := by
    apply hstanding.linked.congr
    · exact h.next none (fun a ha => (by cases ha))
    · rintro block hblock
      exact h.next (some block) fun a ha => Option.some.inj ha ▸ hstanding.below block hblock
  below := hstanding.below
  nodup := hstanding.nodup

theorem Kept.paramData (h : Kept raisesAt frame given e e') (hstanding : Standing e frame blocks) :
    e'.paramData blocks = e.paramData blocks := by
  have hmap : blocks.map e'.params.block = blocks.map e.params.block :=
    map_congr_left fun a ha => h.block a (hstanding.below a ha)
  rw [Evaluation.paramData, Evaluation.paramData, h.front, hmap]

variable {b : ℕ}

theorem Kept.released (h : Kept raisesAt frame given e e') (hb : b < e.buffers.provided)
    (hne : given ≠ some b) : e'.buffers.Released b ↔ e.buffers.Released b := by
  rw [WorkingBuffers.released_iff, WorkingBuffers.released_iff, (h.old b hb hne).2.2]

/-! ## What an exception leaves -/

/-- **Everything is as it was before**: each buffer locked meanwhile has been released, and the
chain of parameters is the same. -/
def Unwound (e e' : Evaluation V P) (blocks : List ℕ) : Prop :=
  (∀ b, e.buffers.provided ≤ b → b < e'.buffers.provided → e'.buffers.Released b) ∧
  (∀ s ∈ places blocks, e'.params.next s = e.params.next s) ∧ e'.paramData blocks = e.paramData blocks

/-- **An exception was raised**, at a call since this state; all is as before if that was among the
first calls, of this number, and only then. -/
structure Interrupted (raisesAt : Option ℕ) (frame first : ℕ) (blocks : List ℕ)
    (e e' : Evaluation V P) : Prop where
  provided_le : e.buffers.provided ≤ e'.buffers.provided
  released : ∀ b < e.buffers.provided, e'.buffers.Released b → e.buffers.Released b
  front : e'.params.front = e.params.front
  block : ∀ a < frame, e'.params.block a = e.params.block a
  next : ∀ s ∈ places blocks, s ≠ HeteroData.lastSeg none blocks → e'.params.next s = e.params.next s
  at_call : ∃ n, raisesAt = some n ∧ e.calls ≤ n ∧ (Unwound e e' blocks ↔ n < e.calls + first)

/-- The result of weaving a port. -/
structure Done (net : Network ι V P) (raisesAt : Option ℕ) (frame first : ℕ) (blocks : List ℕ) (p : ι)
    (given : Option ℕ) (e : Evaluation V P) (b : ℕ) (e' : Evaluation V P) : Prop where
  kept : Kept raisesAt frame given e e'
  result : given = some b ∨ given = none ∧ e.buffers.provided ≤ b ∧ b < e'.buffers.provided
  value : ∃ v, Evaluates net (e.paramData blocks) p v ∧ e'.buffers.content b = some v
  story_given : given = some b → ∃ ins outs, b ∈ outs ∧ b ∉ ins ∧
    e'.buffers.story b = e.buffers.story b ++ [.process ins outs, .emit b]
  story_result : given = none → ReturnedStory b (e'.buffers.story b)
  story_others : ∀ c, e.buffers.provided ≤ c → c < e'.buffers.provided → c ≠ b →
    CompleteStory c (e'.buffers.story c)
  first_le : e.calls + first ≤ e'.calls

/-- What can be relied on when a port is woven: the given buffer is locked, and the log says nothing
about buffers not yet provided. -/
structure Ready (given : Option ℕ) (e : Evaluation V P) : Prop where
  given_lt : ∀ b, given = some b → b < e.buffers.provided
  given_locked : ∀ b, given = some b → e.buffers.state b = .LOCKED
  unborn : ∀ b, e.buffers.provided ≤ b → e.buffers.story b = []

/-- **Weaving a port** either computes its value, or it is interrupted. -/
def Weaves (net : Network ι V P) (raisesAt : Option ℕ) (frame first : ℕ) (blocks : List ℕ) (p : ι)
    (given : Option ℕ) (weave : Evaluation V P → Attempt (Evaluation V P) ℕ) : Prop :=
  ∀ e, Standing e frame blocks → Ready given e →
    (weave e).Sat (Done net raisesAt frame first blocks p given e) (Interrupted raisesAt frame first blocks e)

/-! ## Calls -/

/-- Some calls have been made, none of which raised, and nothing else happened. -/
def Called (raisesAt : Option ℕ) (calls : ℕ) (e e' : Evaluation V P) : Prop :=
  e' = { e with calls := e.calls + calls } ∧ ∀ n, raisesAt = some n → e.calls ≤ n → e.calls + calls ≤ n

/-- One of some calls raised, and nothing else happened. -/
def CallRaised (raisesAt : Option ℕ) (calls : ℕ) (e e' : Evaluation V P) : Prop :=
  (∃ made, e' = { e with calls := made }) ∧ ∃ n, raisesAt = some n ∧ e.calls ≤ n ∧ n < e.calls + calls

theorem Called.kept {calls : ℕ} (h : Called raisesAt calls e e') : Kept raisesAt frame given e e' := by
  obtain ⟨rfl, hquiet⟩ := h
  exact ⟨Nat.le_refl _, fun _ _ _ => ⟨rfl, rfl, rfl⟩, fun _ _ => rfl, rfl, fun _ _ => rfl, fun _ _ => rfl,
    Nat.le_add_right _ _, hquiet⟩

theorem CallRaised.interrupted {calls first : ℕ} (h : CallRaised raisesAt calls e e') (hle : calls ≤ first) :
    Interrupted raisesAt frame first blocks e e' := by
  obtain ⟨⟨made, rfl⟩, n, hn, hle', hlt⟩ := h
  refine ⟨Nat.le_refl _, fun _ _ h => h, rfl, fun _ _ => rfl, fun _ _ _ => rfl, n, hn, hle', ?_⟩
  have hunwound : Unwound e { e with calls := made } blocks :=
    ⟨fun b hb hlt => absurd hb (Nat.not_le_of_gt hlt), fun _ _ => rfl, rfl⟩
  exact iff_of_true hunwound (by omega)

theorem mayRaise_sat (raisesAt : Option ℕ) (e : Evaluation V P) :
    (mayRaise raisesAt e).Sat (fun _ e' => Called raisesAt 1 e e') (CallRaised raisesAt 1 e) := by
  unfold mayRaise
  by_cases hraises : raisesAt = some e.calls
  · rw [if_pos hraises]
    exact ⟨⟨_, rfl⟩, e.calls, hraises, Nat.le_refl _, Nat.lt_succ_self _⟩
  · rw [if_neg hraises]
    refine ⟨rfl, fun n hn hle => ?_⟩
    have hne : n ≠ e.calls := fun heq => hraises (heq ▸ hn)
    omega

theorem ChainFunctor.invoke_sat (raisesAt : Option ℕ) {R : Type w} {functor : ChainFunctor P R}
    (hstanding : Standing e frame blocks)
    (hsegments : functor.segments ≤ blocks.length) :
    (functor.invoke raisesAt e).Sat
      (fun result e' => result = functor.value (e.paramData blocks) ∧ Called raisesAt 1 e e')
      (CallRaised raisesAt 1 e) := by
  refine (mayRaise_sat raisesAt e).bind (fun _ h => h) fun _ e' hcalled => ?_
  have hdata := HeteroData.data_linked hstanding.linked hsegments
  have hsame : e'.params = e.params := by rw [hcalled.1]
  rw [hsame, hdata]
  exact ⟨rfl, hcalled⟩

theorem Called.trans {calls more : ℕ} (h : Called raisesAt calls e e') (hnext : Called raisesAt more e' e'') :
    Called raisesAt (calls + more) e e'' := by
  obtain ⟨rfl, hquiet⟩ := h
  obtain ⟨rfl, hquiet'⟩ := hnext
  refine ⟨by simp [Nat.add_assoc], fun n hn hle => ?_⟩
  have hfirst := hquiet n hn hle
  have hsecond := hquiet' n hn hfirst
  simp only at hsecond
  omega

theorem Called.raised {calls more : ℕ} (h : Called raisesAt calls e e') (hraised : CallRaised raisesAt more e' e'') :
    CallRaised raisesAt (calls + more) e e'' := by
  obtain ⟨rfl, -⟩ := h
  obtain ⟨⟨made, rfl⟩, n, hn, hle, hlt⟩ := hraised
  simp only at hle hlt
  exact ⟨⟨made, rfl⟩, n, hn, by omega, by omega⟩

variable {m : MediaWeavingPattern ι V P}

theorem MediaWeavingPattern.mount_sat (hstanding : Standing e frame blocks)
    (hbuilt : (Turnout.media m).BuiltFor blocks.length) :
    (m.mount raisesAt e).Sat
      (fun param e' => param = m.paramValue (e.paramData blocks) ∧ Called raisesAt m.mountCalls e e')
      (CallRaised raisesAt m.mountCalls e) := by
  unfold MediaWeavingPattern.mount MediaWeavingPattern.paramValue MediaWeavingPattern.mountCalls
  cases hfun : m.paramFun_ with
  | none => exact ⟨rfl, rfl, fun n _ hle => hle⟩
  | some paramFun => exact ChainFunctor.invoke_sat raisesAt hstanding (hbuilt paramFun hfun)

theorem functors_sat {functors : List (ChainFunctor P P)} (hstanding : Standing e frame blocks)
    (hsegments : ∀ functor ∈ functors, functor.segments ≤ blocks.length) :
    (Attempt.forEach (ChainFunctor.invoke raisesAt) functors e).Sat
      (fun data e' => data = functors.map (·.value (e.paramData blocks)) ∧
      Called raisesAt functors.length e e')
      (CallRaised raisesAt functors.length e) := by
  induction functors generalizing e with
  | nil => exact ⟨rfl, rfl, fun n _ hle => hle⟩
  | cons functor functors ih =>
    rw [length_cons, Nat.add_comm]
    have hfirst := ChainFunctor.invoke_sat raisesAt hstanding (hsegments functor mem_cons_self)
    refine hfirst.bind (fun e' h => ⟨h.1, ?_⟩) fun value e' hvalue => ?_
    · obtain ⟨n, hn, hle, hlt⟩ := h.2
      exact ⟨n, hn, hle, by omega⟩
    · obtain ⟨rfl, hcalled⟩ := hvalue
      have hkept : Kept raisesAt frame none e e' := hcalled.kept
      have hrest := ih (hkept.standing hstanding) fun f hf => hsegments f (mem_cons_of_mem functor hf)
      refine hrest.bind (fun e'' h => hcalled.raised h) fun values e'' hvalues => ?_
      obtain ⟨rfl, hcalled'⟩ := hvalues
      rw [hkept.paramData hstanding]
      exact ⟨rfl, hcalled.trans hcalled'⟩

/-! ## Retrieving input data -/

/-- Data are in these buffers. -/
abbrev Holds (w : WorkingBuffers V) (buffers : List ℕ) (values : List V) : Prop :=
  List.Forall₂ (fun b v => w.content b = some v) buffers values

theorem Holds.mapM {buffers : List ℕ} {values : List V} (h : Holds w buffers values) :
    buffers.mapM w.content = some values := by
  induction h with
  | nil => rfl
  | cons hfirst _ ih => simp [hfirst, ih]

theorem Holds.congr {w' : WorkingBuffers V} {buffers : List ℕ} {values : List V} (h : Holds w buffers values)
    (hsame : ∀ b ∈ buffers, w'.content b = w.content b) : Holds w' buffers values := by
  induction h with
  | nil => exact .nil
  | cons hfirst _ ih =>
    refine .cons ((hsame _ mem_cons_self).trans hfirst) (ih fun b hb => ?_)
    exact hsame b (mem_cons_of_mem _ hb)

/-- The state while input data are retrieved: some of the lead ports are done. -/
structure Pulled (net : Network ι V P) (raisesAt : Option ℕ) (frame first : ℕ) (blocks : List ℕ)
    (e : Evaluation V P)
    (done : List ι) (inBuff : List ℕ) (e' : Evaluation V P) : Prop where
  kept : Kept raisesAt frame none e e'
  fresh : ∀ b ∈ inBuff, e.buffers.provided ≤ b ∧ b < e'.buffers.provided
  nodup : inBuff.Nodup
  values : ∃ inputs, List.Forall₂ (Evaluates net (e.paramData blocks)) done inputs ∧
    Holds e'.buffers inBuff inputs
  story_in : ∀ b ∈ inBuff, ReturnedStory b (e'.buffers.story b)
  story_others : ∀ b, e.buffers.provided ≤ b → b < e'.buffers.provided → b ∉ inBuff →
    CompleteStory b (e'.buffers.story b)
  begin_eq : done = [] → e' = e
  first_le : done ≠ [] → e.calls + first ≤ e'.calls

variable {net : Network ι V P} {first : ℕ}

theorem Pulled.refl (e : Evaluation V P) : Pulled net raisesAt frame first blocks e [] [] e where
  kept := .refl e
  fresh _ hb := by cases hb
  nodup := .nil
  values := ⟨[], .nil, .nil⟩
  story_in _ hb := by cases hb
  story_others b hle hlt := absurd hle (Nat.not_le_of_gt hlt)
  begin_eq _ := rfl
  first_le h := absurd rfl h

theorem Kept.unborn_eq_nil (h : Kept raisesAt frame given e e') (hready : ∀ b, e.buffers.provided ≤ b →
    e.buffers.story b = []) : ∀ b, e'.buffers.provided ≤ b → e'.buffers.story b = [] :=
  fun b hb => (h.unborn b hb).trans (hready b (h.provided_le.trans hb))

/-- One more lead port. -/
theorem Pulled.next {done : List ι} {inBuff : List ℕ} {lead : ι} {leadFirst : ℕ}
    (h : Pulled net raisesAt frame first blocks e done inBuff e') (hstanding : Standing e frame blocks)
    (hdone : Done net raisesAt frame leadFirst blocks lead none e' b e'')
    (hfirst : done = [] → first = leadFirst) :
    Pulled net raisesAt frame first blocks e (done ++ [lead]) (inBuff ++ [b]) e'' := by
  obtain ⟨hle, hlt⟩ : e'.buffers.provided ≤ b ∧ b < e''.buffers.provided := by
    simpa using hdone.result
  have hbelow : ∀ c ∈ inBuff, c < e'.buffers.provided := fun c hc => (h.fresh c hc).2
  have hnew : b ∉ inBuff := fun hmem => absurd (hbelow b hmem) (Nat.not_lt_of_ge hle)
  have hold := fun c (hc : c < e'.buffers.provided) => hdone.kept.old c hc (by simp)
  refine ⟨h.kept.trans hdone.kept, fun c hc => ?_, ?_, ?_, fun c hc => ?_, fun c hcle hclt hc => ?_, by simp,
    fun _ => ?_⟩
  · rcases mem_append.mp hc with hc | hc
    · exact ⟨(h.fresh c hc).1, Nat.lt_of_lt_of_le (hbelow c hc) hdone.kept.provided_le⟩
    · rw [mem_singleton.mp hc]
      exact ⟨h.kept.provided_le.trans hle, hlt⟩
  · exact nodup_append'.mpr ⟨h.nodup, nodup_singleton b, by simpa using hnew⟩
  · obtain ⟨inputs, hinputs, hholds⟩ := h.values
    obtain ⟨input, hinput, hcontent⟩ := hdone.value
    rw [h.kept.paramData hstanding] at hinput
    -- the data retrieved before are still there
    have hsame : ∀ c ∈ inBuff, e''.buffers.content c = e'.buffers.content c :=
        fun c hc => (hold c (hbelow c hc)).2.1
    exact ⟨inputs ++ [input], rel_append hinputs (.cons hinput .nil),
      rel_append (hholds.congr hsame) (.cons hcontent .nil)⟩
  · rcases mem_append.mp hc with hc | hc
    · rw [(hold c (hbelow c hc)).2.2]
      exact h.story_in c hc
    · rw [mem_singleton.mp hc]
      exact hdone.story_result rfl
  · rw [mem_append, mem_singleton, not_or] at hc
    by_cases hearlier : c < e'.buffers.provided
    · rw [(hold c hearlier).2.2]
      exact h.story_others c hcle hearlier hc.1
    · exact hdone.story_others c (Nat.le_of_not_lt hearlier) hclt hc.2
  · by_cases hnil : done = []
    · have hbegin := h.begin_eq hnil
      have hcalls := hdone.first_le
      rw [hfirst hnil, ← hbegin]
      exact hcalls
    · exact (h.first_le hnil).trans hdone.kept.calls_le

/-- **An exception while input data are retrieved.** When the first lead port is done its buffer is
never released. -/
theorem Pulled.interrupted {done : List ι} {inBuff : List ℕ} {leadFirst : ℕ}
    (h : Pulled net raisesAt frame first blocks e done inBuff e') (hstanding : Standing e frame blocks)
    (hinter : Interrupted raisesAt frame leadFirst blocks e' e'') (hfirst : done = [] → first = leadFirst)
    (hlength : done.length = inBuff.length) : Interrupted raisesAt frame first blocks e e'' := by
  by_cases hnil : done = []
  · rw [hfirst hnil, ← h.begin_eq hnil]
    exact hinter
  · obtain ⟨n, hn, hle, -⟩ := hinter.at_call
    refine ⟨h.kept.provided_le.trans hinter.provided_le, fun b hb hrel => ?_, hinter.front.trans h.kept.front,
      fun a ha => (hinter.block a ha).trans (h.kept.block a ha), fun s hs hne => ?_, n, hn,
      h.kept.calls_le.trans hle, iff_of_false (fun hunwound => ?_) ?_⟩
    · rw [← h.kept.released hb (by simp)]
      exact hinter.released b (Nat.lt_of_lt_of_le hb h.kept.provided_le) hrel
    · exact (hinter.next s hs hne).trans (h.kept.next s (hstanding.place_lt hs))
    · -- there is a buffer with input data
      have hne : inBuff ≠ [] := by
        rintro rfl
        exact hnil (eq_nil_of_length_eq_zero hlength)
      obtain ⟨b, hb⟩ := exists_mem_of_ne_nil _ hne
      obtain ⟨hble, hblt⟩ := h.fresh b hb
      have hreleased := hunwound.1 b hble (Nat.lt_of_lt_of_le hblt hinter.provided_le)
      exact (h.story_in b hb).not_released (hinter.released b hblt hreleased)
    · have := h.first_le hnil
      omega

/-- Retrieving input data from all lead ports. -/
theorem MediaWeavingPattern.pull_sat {leadFirst : ι → ℕ}
    {weave : ι → Evaluation V P → Attempt (Evaluation V P) ℕ}
    (hweave : ∀ lead ∈ m.leadPort_, Weaves net raisesAt frame (leadFirst lead) blocks lead none (weave lead))
    (hfirst : ∀ lead ∈ m.leadPort_.head?, first = leadFirst lead) (hstanding : Standing e frame blocks)
    (hunborn : ∀ b, e.buffers.provided ≤ b → e.buffers.story b = []) :
    (m.pull weave e).Sat (Pulled net raisesAt frame first blocks e m.leadPort_)
      (Interrupted raisesAt frame first blocks e) := by
  refine (Attempt.forEach_sat (I := fun todo inBuff e' => ∃ done, m.leadPort_ = done ++ todo ∧
    done.length = inBuff.length ∧ Pulled net raisesAt frame first blocks e done inBuff e') ?_
    ⟨[], rfl, rfl, .refl e⟩).mono (fun inBuff e' h => ?_) fun _ h => h
  rotate_left
  · obtain ⟨done, hdone, -, hpulled⟩ := h
    rw [hdone]
    simpa using hpulled
  · rintro lead todo inBuff e' ⟨done, hsplit, hlength, hpulled⟩
    have hmem : lead ∈ m.leadPort_ := by simp [hsplit]
    have hhead : done = [] → first = leadFirst lead := by
      rintro rfl
      exact hfirst lead (by simp [hsplit])
    have hready : Ready none e' :=
      ⟨fun b hb => (by cases hb), fun b hb => (by cases hb), hpulled.kept.unborn_eq_nil hunborn⟩
    refine (hweave lead hmem e' (hpulled.kept.standing hstanding) hready).mono (fun b e'' hdone => ?_)
      fun e'' hinter => hpulled.interrupted hstanding hinter hhead hlength
    exact ⟨done ++ [lead], by simp [hsplit], by simp [hlength], hpulled.next hstanding hdone hhead⟩

/-! ## Providing output buffers -/

/-- The state while output buffers are provided: those newly locked are all output buffers. -/
structure Shed (raisesAt : Option ℕ) (frame resultSlot : ℕ) (given : Option ℕ) (e : Evaluation V P)
    (outBuff : List ℕ)
    (e' : Evaluation V P) : Prop where
  kept : Kept raisesAt frame none e e'
  params : e'.params = e.params
  calls_eq : e'.calls + e.buffers.provided = e.calls + e'.buffers.provided
  slot : ∀ i b, outBuff[i]? = some b →
    given = some b ∧ i = resultSlot ∨
      (given = none ∨ i ≠ resultSlot) ∧ e.buffers.provided ≤ b ∧ b < e'.buffers.provided
  locked : ∀ b, e.buffers.provided ≤ b → b < e'.buffers.provided →
    b ∈ outBuff ∧ e'.buffers.state b = .LOCKED ∧ ∃ type, e'.buffers.story b = [.lock b type]
  nodup : outBuff.Nodup

/-- An exception while output buffers are provided: those newly locked are not released. -/
structure ShedRaised (raisesAt : Option ℕ) (e e' : Evaluation V P) : Prop where
  provided_le : e.buffers.provided ≤ e'.buffers.provided
  params : e'.params = e.params
  released : ∀ b, e'.buffers.Released b → e.buffers.Released b
  at_call : ∃ n, raisesAt = some n ∧ n + e.buffers.provided = e.calls + e'.buffers.provided

variable {resultSlot : ℕ} {outBuff : List ℕ}

theorem Shed.refl (e : Evaluation V P) : Shed raisesAt frame resultSlot given e [] e where
  kept := .refl e
  params := rfl
  calls_eq := rfl
  slot i b h := by simp at h
  locked b hle hlt := absurd hle (Nat.not_le_of_gt hlt)
  nodup := .nil

theorem Shed.lt (h : Shed raisesAt frame resultSlot given e outBuff e')
    (hgiven : ∀ b, given = some b → b < e.buffers.provided) (hb : b ∈ outBuff) :
    b < e'.buffers.provided := by
  obtain ⟨i, hi⟩ := mem_iff_getElem?.mp hb
  rcases h.slot i b hi with ⟨heq, -⟩ | ⟨-, -, hlt⟩
  · exact Nat.lt_of_lt_of_le (hgiven b heq) h.kept.provided_le
  · exact hlt

theorem Shed.give (h : Shed raisesAt frame outBuff.length (some b) e outBuff e')
    (hlt : b < e.buffers.provided) : Shed raisesAt frame outBuff.length (some b) e (outBuff ++ [b]) e' := by
  have hnew : b ∉ outBuff := by
    intro hmem
    obtain ⟨i, hi⟩ := mem_iff_getElem?.mp hmem
    have hilt := (List.getElem?_eq_some_iff.mp hi).1
    rcases h.slot i b hi with ⟨-, heq⟩ | ⟨-, hle, -⟩ <;> omega
  refine ⟨h.kept, h.params, h.calls_eq, fun i c hi => ?_, fun c hle hclt => ?_, ?_⟩
  · rcases Nat.lt_trichotomy i outBuff.length with hi' | hi' | hi'
    · rw [getElem?_append_left hi'] at hi
      exact h.slot i c hi
    · subst hi'
      simp only [getElem?_concat_length, Option.some.injEq] at hi
      exact .inl ⟨congrArg some hi, rfl⟩
    · rw [getElem?_eq_none (by rw [length_append, length_singleton]; omega)] at hi
      cases hi
  · obtain ⟨hmem, hlocked⟩ := h.locked c hle hclt
    exact ⟨mem_append_left _ hmem, hlocked⟩
  · exact nodup_append'.mpr ⟨h.nodup, nodup_singleton b, by simpa using hnew⟩

/-- Another slot gets a new buffer. -/
theorem Shed.lock (h : Shed raisesAt frame resultSlot given e outBuff e') (hready : Ready given e) (type : ℕ)
    (hslot : given = none ∨ outBuff.length ≠ resultSlot) (hcalled : Called raisesAt 1 e' e'') :
    Shed raisesAt frame resultSlot given e (outBuff ++ [e''.buffers.provided])
      { e'' with buffers := e''.buffers.lockBuffer type } := by
  obtain ⟨rfl, hquiet⟩ := hcalled
  have hprovided : (e'.buffers.lockBuffer type).provided = e'.buffers.provided + 1 := rfl
  have hnew : e'.buffers.provided ∉ outBuff := fun hmem => Nat.lt_irrefl _ (h.lt hready.given_lt hmem)
  have hlock : Kept raisesAt frame none e'
      { e' with calls := e'.calls + 1, buffers := e'.buffers.lockBuffer type } := by
    refine ⟨Nat.le_succ _, fun b hb _ => ?_, fun b hb => ?_, rfl, fun _ _ => rfl, fun _ _ => rfl,
      Nat.le_succ _, hquiet⟩
    · have hne : b ≠ e'.buffers.provided := Nat.ne_of_lt hb
      exact ⟨Function.update_of_ne hne _ _, Function.update_of_ne hne _ _, by simp [hne]⟩
    · have hne : b ≠ e'.buffers.provided := by
        simp only [hprovided] at hb
        omega
      simp [hne]
  refine ⟨h.kept.trans hlock, h.params, ?_, fun i c hi => ?_, fun c hle hclt => ?_, ?_⟩
  · have := h.calls_eq
    simp only [hprovided]
    omega
  · rcases Nat.lt_trichotomy i outBuff.length with hi' | hi' | hi'
    · rw [getElem?_append_left hi'] at hi
      refine (h.slot i c hi).imp_right fun hfresh => ⟨hfresh.1, hfresh.2.1, ?_⟩
      exact Nat.lt_succ_of_lt hfresh.2.2
    · subst hi'
      simp only [getElem?_concat_length, Option.some.injEq] at hi
      exact .inr ⟨hslot, hi ▸ h.kept.provided_le, hi ▸ Nat.lt_succ_self _⟩
    · rw [getElem?_eq_none (by rw [length_append, length_singleton]; omega)] at hi
      cases hi
  · simp only [hprovided] at hclt
    by_cases heq : c = e'.buffers.provided
    · subst heq
      have hnil := h.kept.unborn_eq_nil hready.unborn _ (Nat.le_refl _)
      refine ⟨mem_append_right _ (mem_singleton_self _), by simp
        [WorkingBuffers.lockBuffer], type, ?_⟩
      simp [hnil]
    · obtain ⟨hmem, hstate, t, hstory⟩ := h.locked c hle (by omega)
      refine ⟨mem_append_left _ hmem, ?_, t, ?_⟩
      · simpa [WorkingBuffers.lockBuffer, heq] using hstate
      · simp [hstory, heq]
  · exact nodup_append'.mpr ⟨h.nodup, nodup_singleton _, by simpa using hnew⟩

/-- An exception while output buffers are provided. -/
theorem Shed.raised (h : Shed raisesAt frame resultSlot given e outBuff e') (hready : Ready given e)
    (hraised : CallRaised raisesAt 1 e' e'') : ShedRaised raisesAt e e'' := by
  obtain ⟨⟨made, rfl⟩, n, hn, hle, hlt⟩ := hraised
  refine ⟨h.kept.provided_le, h.params, fun b hrel => ?_, n, hn, ?_⟩
  · by_cases hold : b < e.buffers.provided
    · exact (h.kept.released hold (by simp)).mp hrel
    · rw [WorkingBuffers.released_iff] at hrel
      by_cases hfresh : b < e'.buffers.provided
      · obtain ⟨-, -, t, hstory⟩ := h.locked b (Nat.le_of_not_lt hold) hfresh
        simp [hstory] at hrel
      · have hnil := h.kept.unborn_eq_nil hready.unborn b (Nat.le_of_not_lt hfresh)
        simp [hnil] at hrel
  · have := h.calls_eq
    simp only
    omega

/-- Providing output buffers for all slots. -/
theorem MediaWeavingPattern.shed_sat (frame : ℕ) (hready : Ready given e) :
    (m.shed raisesAt given e).Sat
      (fun outBuff e' => outBuff.length = m.outTypes_.length ∧
        Shed raisesAt frame m.resultSlot_ given e outBuff e')
      (ShedRaised raisesAt e) := by
  refine (Attempt.forEach_sat (I := fun todo outBuff e' => (∃ before, m.outTypes_.zipIdx = before ++ todo ∧
    before.length = outBuff.length) ∧ Shed raisesAt frame m.resultSlot_ given e outBuff e') ?_
    ⟨⟨[], rfl, rfl⟩, .refl e⟩).mono (fun outBuff e' h => ?_) fun _ h => h
  rotate_left
  · obtain ⟨⟨before, hsplit, hlength⟩, hshed⟩ := h
    rw [append_nil] at hsplit
    rw [nil_append] at hlength hshed
    exact ⟨by rw [← hlength, ← hsplit, length_zipIdx], hshed⟩
  · rintro ⟨type, i⟩ todo outBuff e' ⟨⟨before, hsplit, hlength⟩, hshed⟩
    have hindex : i = outBuff.length := by
      have hslot : m.outTypes_.zipIdx[before.length]? = some (type, i) := by simp [hsplit]
      grind
    have hnext : ∃ done, m.outTypes_.zipIdx = done ++ todo ∧ done.length = outBuff.length + 1 :=
      ⟨before ++ [(type, i)], by simp [hsplit], by simp [hlength]⟩
    have hlock : given = none ∨ outBuff.length ≠ m.resultSlot_ →
        (lockBuffer raisesAt type e').Sat
          (fun b e'' => (∃ done, m.outTypes_.zipIdx = done ++ todo ∧ done.length = (outBuff ++ [b]).length) ∧
            Shed raisesAt frame m.resultSlot_ given e (outBuff ++ [b]) e'') (ShedRaised raisesAt e) := by
      intro hslot
      refine (mayRaise_sat raisesAt e').bind (fun _ h => hshed.raised hready h) fun _ e'' hcalled => ?_
      exact ⟨by simpa using hnext, hshed.lock hready type hslot hcalled⟩
    unfold outputSlot
    split
    · rename_i b
      by_cases hslot : i = m.resultSlot_
      · rw [if_pos hslot]
        rw [← hslot, hindex] at hshed ⊢
        exact ⟨by simpa using hnext, hshed.give (hready.given_lt b rfl)⟩
      · rw [if_neg hslot]
        exact hlock (.inr (hindex ▸ hslot))
    · exact hlock (.inl rfl)

end Lumiera.Steam.Engine
