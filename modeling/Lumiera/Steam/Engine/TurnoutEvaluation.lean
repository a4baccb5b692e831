import Lumiera.Steam.Engine.TurnoutMedia

/-! # Weaving parameters

The phases of the param weaving pattern put together. While the delegate port is woven the data block is **attached**
at the end of the chain, and it is detached thereafter. An exception in between leaves it where it is. -/

namespace Lumiera.Steam.Engine

open Function List

open Lib (HeteroData)

universe u v w

variable {ι : Type u} {V : Type v} {P : Type w} {net : Network ι V P}
variable {raisesAt : Option ℕ} {frame first : ℕ} {given : Option ℕ} {e e' e'' : Evaluation V P} {blocks : List ℕ}

/-- The last place of the chain. -/
abbrev endOf (blocks : List ℕ) : Option ℕ := HeteroData.lastSeg none blocks

theorem Standing.endOf_lt (h : Standing e frame blocks) : ∀ a, endOf blocks = some a → a < frame := by
  intro a ha
  rcases HeteroData.lastSeg_mem none blocks with hnone | ⟨block, hblock, hlast⟩
  · rw [endOf, hnone] at ha
    cases ha
  · rw [endOf, hlast] at ha
    cases ha
    exact h.below _ hblock

theorem endOf_mem (blocks : List ℕ) : endOf blocks ∈ places blocks := by
  rcases HeteroData.lastSeg_mem none blocks with hnone | ⟨block, hblock, hlast⟩
  · rw [endOf, hnone]
    exact mem_cons_self
  · rw [endOf, hlast]
    exact mem_cons_of_mem _ (mem_map_of_mem hblock)

/-- **A data block is attached** in the current frame: it is linked to the last place of the chain, and nothing else has
happened but some calls. -/
structure Attached (raisesAt : Option ℕ) (frame calls : ℕ) (blocks : List ℕ) (data : List P) (e e' : Evaluation V P) :
    Prop where
  buffers : e'.buffers = e.buffers
  front : e'.params.front = e.params.front
  block : ∀ a ≠ frame, e'.params.block a = e.params.block a
  data : e'.params.block frame = data
  linked : e'.params.next (endOf blocks) = some frame
  last : e'.params.next (some frame) = none
  next : ∀ s, s ≠ endOf blocks → s ≠ some frame → e'.params.next s = e.params.next s
  calls_le : e.calls + calls ≤ e'.calls
  quiet : ∀ n, raisesAt = some n → e.calls ≤ n → e'.calls ≤ n

variable {calls : ℕ} {data : List P}

section Attached

variable (h : Attached raisesAt frame calls blocks data e e')

include h

theorem Attached.standing (hstanding : Standing e frame blocks) :
    Standing e' (frame + 1) (blocks ++ [frame]) where
  linked := by
    have hplaces : none :: blocks.map some = places blocks := rfl
    refine hstanding.linked.extend h.last h.linked h.next ?_ fun hmem => ?_
    · rw [nodup_cons]
      refine ⟨by simp, hstanding.nodup.map (Option.some_injective ℕ)⟩
    · exact Nat.lt_irrefl _ (hstanding.place_lt (hplaces ▸ hmem) frame rfl)
  below b hb := by
    rcases mem_append.mp hb with hb | hb
    · exact Nat.lt_succ_of_lt (hstanding.below b hb)
    · rw [mem_singleton.mp hb]
      exact Nat.lt_succ_self frame
  nodup := by
    have hnew : frame ∉ blocks := fun hmem => Nat.lt_irrefl _ (hstanding.below frame hmem)
    exact nodup_append'.mpr ⟨hstanding.nodup, nodup_singleton frame, by simpa using hnew⟩

theorem Attached.paramData (hstanding : Standing e frame blocks) :
    e'.paramData (blocks ++ [frame]) = e.paramData blocks ++ [data] := by
  have hmap : blocks.map e'.params.block = blocks.map e.params.block :=
    map_congr_left fun a ha => h.block a (Nat.ne_of_lt (hstanding.below a ha))
  rw [Evaluation.paramData, h.front, map_append, hmap, map_singleton, h.data]
  rfl

/-- An exception while the block is attached leaves it in the chain. -/
theorem Attached.interrupted (hstanding : Standing e frame blocks)
    (hprovided : e'.buffers.provided ≤ e''.buffers.provided)
    (hreleased : ∀ b < e'.buffers.provided, e''.buffers.Released b → e'.buffers.Released b)
    (hfront : e''.params.front = e'.params.front) (hblock : ∀ a < frame, e''.params.block a = e'.params.block a)
    (hnext : ∀ s ∈ places blocks, e''.params.next s = e'.params.next s)
    (hcall : ∃ n, raisesAt = some n ∧ e'.calls ≤ n) : Interrupted raisesAt frame calls blocks e e'' := by
  obtain ⟨n, hn, hle⟩ := hcall
  have hcalls := h.calls_le
  rw [h.buffers] at hprovided hreleased
  refine ⟨hprovided, hreleased, hfront.trans h.front, fun a ha => ?_, fun s hs hne => ?_, n, hn, by omega, ?_⟩
  · exact (hblock a ha).trans (h.block a (Nat.ne_of_lt ha))
  · refine (hnext s hs).trans (h.next s hne ?_)
    rintro rfl
    exact Nat.lt_irrefl _ (hstanding.place_lt hs frame rfl)
  · refine iff_of_false (fun hunwound => ?_) (by omega)
    have hplace := hunwound.2.1 (endOf blocks) (endOf_mem blocks)
    rw [hnext _ (endOf_mem blocks), h.linked, hstanding.linked.next_lastSeg] at hplace
    cases hplace

theorem Attached.delegate_interrupted
    (hstanding : Standing e frame blocks)
    (hinter : Interrupted raisesAt (frame + 1) first (blocks ++ [frame]) e' e'') :
    Interrupted raisesAt frame calls blocks e e'' := by
  obtain ⟨n, hn, hle, -⟩ := hinter.at_call
  refine h.interrupted hstanding hinter.provided_le hinter.released hinter.front
    (fun a ha => hinter.block a (Nat.lt_succ_of_lt ha)) (fun s hs => ?_) ⟨n, hn, hle⟩
  apply hinter.next s
  · rw [places, map_append]
    exact mem_append_left _ hs
  · rw [HeteroData.lastSeg_append]
    rintro rfl
    exact Nat.lt_irrefl _ (hstanding.place_lt hs frame rfl)

end Attached

variable {d : ParamWeavingPattern ι P} {p : ι} {b : ℕ}

/-- The block is detached when the delegate port is done, and all is as it was. -/
theorem Attached.done (h : Attached raisesAt frame calls blocks (d.dataBlock (e.paramData blocks)) e e')
    (hstanding : Standing e frame blocks) (hport : net.port p = .param d) (hseg : d.seg = blocks.length + 1)
    (hdone : Done net raisesAt (frame + 1) first (blocks ++ [frame]) d.delegatePort_ given e' b e'') :
    (d.fix frame b e'').Sat (Done net raisesAt frame calls blocks p given e) (Interrupted raisesAt frame calls blocks e) := by
  have hstanding'' := hdone.kept.standing (h.standing hstanding)
  rw [ParamWeavingPattern.fix, HeteroData.detachFrom, hseg, HeteroData.checkedDetach_linked hstanding''.linked]
  have hkept := hdone.kept
  obtain ⟨v, hv, hcontent⟩ := hdone.value
  rw [h.paramData hstanding] at hv
  have hresult := hdone.result
  have hgiven := hdone.story_given
  have hothers := hdone.story_others
  rw [h.buffers] at hresult hgiven hothers
  refine ⟨⟨?_, ?_, ?_, ?_, fun a ha => ?_, fun s hs => ?_, ?_, fun n hn hle => ?_⟩, hresult,
    ⟨v, .param hport hv, hcontent⟩, hgiven, hdone.story_result, hothers, ?_⟩
  · exact h.buffers ▸ hkept.provided_le
  · exact h.buffers ▸ hkept.old
  · exact h.buffers ▸ hkept.unborn
  · exact hkept.front.trans h.front
  · exact (hkept.block a (Nat.lt_succ_of_lt ha)).trans (h.block a (Nat.ne_of_lt ha))
  · by_cases hend : s = endOf blocks
    · subst hend
      rw [hstanding.linked.next_lastSeg]
      exact update_self _ _ _
    · have hne : s ≠ some frame := fun heq => Nat.lt_irrefl _ (hs frame heq)
      simp only [update_of_ne hend]
      exact (hkept.next s fun a ha => Nat.lt_succ_of_lt (hs a ha)).trans (h.next s hend hne)
  · have := h.calls_le
    have := hkept.calls_le
    simp only
    omega
  · exact hkept.quiet n hn (h.quiet n hn hle)
  · have := h.calls_le
    have := hkept.calls_le
    simp only
    omega

theorem Attached.of_linkInto {params : HeteroData P} (hstanding : Standing e frame blocks)
    (hcalled : Called raisesAt calls e e')
    (hlink : (e'.params.emplace frame data).linkInto (blocks.length + 1) frame = some params) :
    Attached raisesAt frame calls blocks data e { e' with params := params } := by
  obtain ⟨rfl, hquiet⟩ := hcalled
  have hnew : frame ∉ blocks := fun hmem => Nat.lt_irrefl _ (hstanding.below frame hmem)
  have hlinked := hstanding.linked.emplace hnew data
  simp only [HeteroData.linkInto, HeteroData.checkedTraversal_linked hlinked, Option.map_some, Option.some.injEq] at hlink
  subst hlink
  have hne : some frame ≠ endOf blocks := fun heq => Nat.lt_irrefl _ (hstanding.endOf_lt frame heq.symm)
  refine ⟨rfl, rfl, fun a ha => update_of_ne ha _ _, update_self _ _ _, update_self _ _ _, ?_,
    fun s hs hs' => ?_, Nat.le_refl _, hquiet⟩
  · simp only [update_of_ne hne]
    exact update_self _ _ _
  · simp only [update_of_ne hs]
    exact update_of_ne hs' _ _

/-- The parameters are computed, the block is attached, and the data post-processed. -/
theorem ParamWeavingPattern.shed_sat (hstanding : Standing e frame blocks)
    (hbuilt : (Turnout.param d : Turnout ι V P).BuiltFor blocks.length)
    (hcalled : Called raisesAt d.functors_.length e e') :
    (d.shed raisesAt frame { e' with params := e'.params.emplace frame (d.computed (e.paramData blocks)) }).Sat
      (fun _ e'' =>
        Attached raisesAt frame d.functors_.length blocks (d.dataBlock (e.paramData blocks)) e e'')
      (Interrupted raisesAt frame d.functors_.length blocks e) := by
  have hkept : Kept raisesAt frame none e e' := hcalled.kept
  have hlink : ∃ params, (e'.params.emplace frame (d.computed (e.paramData blocks))).linkInto d.seg frame =
      some params := by
    have hnew : frame ∉ blocks := fun hmem => Nat.lt_irrefl _ (hstanding.below frame hmem)
    have hlinked := (hkept.standing hstanding).linked.emplace hnew (d.computed (e.paramData blocks))
    rw [HeteroData.linkInto, hbuilt.1, HeteroData.checkedTraversal_linked hlinked]
    exact ⟨_, rfl⟩
  obtain ⟨params, hparams⟩ := hlink
  have hattached := Attached.of_linkInto hstanding hcalled (hbuilt.1 ▸ hparams)
  rw [ParamWeavingPattern.shed]
  simp only [hparams]
  cases hpost : d.postProcess_ with
  | none =>
    simpa [ParamWeavingPattern.dataBlock, hpost] using hattached
  | some postProcess =>
    have hsegments : postProcess.segments ≤ (blocks ++ [frame]).length := by
      rw [length_append]
      exact hbuilt.2.2 postProcess hpost
    refine (ChainFunctor.invoke_sat raisesAt (hattached.standing hstanding) hsegments).bind (fun e'' hraised => ?_)
      fun processed e'' hprocessed => ?_
    · obtain ⟨⟨made, rfl⟩, n, hn, hle, -⟩ := hraised
      exact hattached.interrupted hstanding (Nat.le_refl _) (fun _ _ h => h) rfl (fun _ _ => rfl) (fun _ _ => rfl)
        ⟨n, hn, hle⟩
    · obtain ⟨rfl, rfl, hquiet⟩ := hprocessed
      rw [hattached.paramData hstanding]
      refine ⟨hattached.buffers, hattached.front, fun a ha => ?_, ?_, hattached.linked, hattached.last, hattached.next,
        Nat.le_succ_of_le hattached.calls_le, fun n hn hle => hquiet n hn (hattached.quiet n hn hle)⟩
      · exact (update_of_ne ha _ _).trans (hattached.block a ha)
      · rw [ParamWeavingPattern.dataBlock, hpost]
        exact update_self _ _ _

/-- A param pattern is woven when its delegate port is. -/
theorem ParamWeavingPattern.weaves {weave : ι → Option ℕ → Evaluation V P → Attempt (Evaluation V P) ℕ}
    (hport : net.port p = .param d) (hbuilt : (Turnout.param d : Turnout ι V P).BuiltFor blocks.length)
    (hweave : Weaves net raisesAt (frame + 1) first (blocks ++ [frame]) d.delegatePort_ given
      (weave d.delegatePort_ given)) :
    Weaves net raisesAt frame d.functors_.length blocks p given fun e =>
      (d.pull raisesAt frame e).bind fun _ e =>
      (d.shed raisesAt frame e).bind fun _ e =>
      (d.weft weave given e).bind fun result e =>
      d.fix frame result e := by
  intro e hstanding hready
  have hpull : (d.pull raisesAt frame e).Sat
      (fun _ e₂ => ∃ e₁, Called raisesAt d.functors_.length e e₁ ∧
        e₂ = { e₁ with params := e₁.params.emplace frame (d.computed (e.paramData blocks)) })
      (Interrupted raisesAt frame d.functors_.length blocks e) := by
    refine (functors_sat hstanding hbuilt.2.1).bind (fun e₁ hraised => hraised.interrupted (Nat.le_refl _))
      fun data e₁ hdata => ?_
    obtain ⟨rfl, hcalled⟩ := hdata
    exact ⟨e₁, hcalled, rfl⟩
  refine hpull.bind (fun _ hinter => hinter) fun _ e₂ hemplaced => ?_
  obtain ⟨e₁, hcalled, rfl⟩ := hemplaced
  refine (ParamWeavingPattern.shed_sat hstanding hbuilt hcalled).bind (fun _ hinter => hinter) fun _ e₃ hattached => ?_
  have hready₃ : Ready given e₃ := by
    refine ⟨?_, ?_, ?_⟩ <;> rw [hattached.buffers]
    · exact hready.given_lt
    · exact hready.given_locked
    · exact hready.unborn
  refine (hweave e₃ (hattached.standing hstanding) hready₃).bind (fun e₄ hinter => ?_) fun b e₄ hdone => ?_
  · exact hattached.delegate_interrupted hstanding hinter
  · exact hattached.done hstanding hport hbuilt.1 hdone

/-! ## Evaluating a network of ports

Weaving any port of a network, in whatever state of the turnout system, computes the value of this
port (`weave_value`). When a call raises, everything is as it was before only if that was one of the
first calls, before any buffer had been locked or any block of parameters attached (`unwound_iff`).
-/

open List

/-- **Every port is woven**: by induction on the stack left, which suffices when it exceeds the rank
of the port. -/
theorem weaves_of_rank (raisesAt : Option ℕ) {rank : ι → ℕ}
    (hrank : ∀ p, ∀ q ∈ (net.port p).leads, rank q < rank p)
    {fuel frame : ℕ} {p : ι} {blocks : List ℕ} (given : Option ℕ) (hfuel : rank p < fuel)
    (hfits : Fits net blocks.length p) :
    Weaves net raisesAt frame (leadIn net fuel p) blocks p given (weave raisesAt net fuel frame p given) := by
  induction fuel generalizing frame p blocks given with
  | zero => exact absurd hfuel (Nat.not_lt_zero _)
  | succ fuel ih =>
    have hbuilt := hfits.builtFor
    cases hport : net.port p with
    | media m =>
      rw [hport] at hbuilt
      have hweave : ∀ lead ∈ m.leadPort_, Weaves net raisesAt (frame + 1)
          (leadIn net fuel lead) blocks lead none
          (weave raisesAt net fuel (frame + 1) lead none) := by
        intro lead hlead
        have hless : rank lead < rank p := hrank p lead (by rw [hport]; exact hlead)
        exact ih none (by omega) (hfits.lead hport hlead)
      intro e hstanding hready
      rw [weave, leadIn, hport]
      exact MediaWeavingPattern.weaves hport hbuilt (Nat.le_succ frame) hweave e hstanding hready
    | param d =>
      rw [hport] at hbuilt
      have hless : rank d.delegatePort_ < rank p :=
        hrank p d.delegatePort_ (by rw [hport]; exact mem_singleton_self _)
      have hfits' : Fits net (blocks ++ [frame]).length d.delegatePort_ := by
        rw [length_append]
        exact hfits.delegate hport
      have hweave : Weaves net raisesAt (frame + 1) (leadIn net fuel d.delegatePort_) (blocks ++ [frame])
          d.delegatePort_ given (weave raisesAt net fuel (frame + 1) d.delegatePort_ given) :=
        ih given (by omega) hfits'
      intro e hstanding hready
      rw [weave, leadIn, hport]
      exact ParamWeavingPattern.weaves hport hbuilt hweave e hstanding hready

/-- **A port has been woven**: the buffer returned is the given one, or else a new one, and holds
the value of the port. It was emitted; every other buffer locked meanwhile was written by one
function, emitted, possibly read by one function, and released thereafter. The parameters are as
before, and so are the buffers of others. -/
structure Woven (net : Network ι V P) (p : ι) (blocks : List ℕ) (outBuff : Option ℕ)
    (e : Evaluation V P) (b : ℕ)
    (e' : Evaluation V P) : Prop where
  result : outBuff = some b ∨ outBuff = none ∧ e.buffers.provided ≤ b ∧ b < e'.buffers.provided
  value : ∃ v, Evaluates net (e.paramData blocks) p v ∧
    (∀ v', Evaluates net (e.paramData blocks) p v' → v' = v) ∧
    e'.buffers.content b = some v
  given : outBuff = some b → ∃ ins outs, b ∈ outs ∧ b ∉ ins ∧
    e'.buffers.story b = e.buffers.story b ++ [.process ins outs, .emit b]
  returned : outBuff = none → ReturnedStory b (e'.buffers.story b)
  complete : ∀ c, e.buffers.provided ≤ c → c < e'.buffers.provided → c ≠ b → CompleteStory c
    (e'.buffers.story c)
  untouched : ∀ c < e.buffers.provided, outBuff ≠ some c →
    e'.buffers.story c = e.buffers.story c ∧ e'.buffers.content c = e.buffers.content c
  chain : (∀ s ∈ places blocks, e'.params.next s = e.params.next s) ∧ e'.paramData blocks = e.paramData blocks

/-- **Recursive node evaluation**: in every finite network of ports, when no call raises, weaving a
port computes its value, with any chain of parameters for which the port was built, and any buffer
given for the output. -/
theorem weave_value [Finite ι] (net : Network ι V P) (p : ι) (frame : ℕ) (blocks : List ℕ) (outBuff : Option ℕ)
    (e : Evaluation V P) (hfits : Fits net blocks.length p) (hstanding : Standing e frame blocks)
    (hready : Ready outBuff e) : ∃ depth, ∀ fuel ≥ depth, ∃ b e', weave none net fuel frame p outBuff e = .ok b e' ∧
    Woven net p blocks outBuff e b e' := by
  obtain ⟨rank, hrank⟩ := net.exists_rank
  refine ⟨rank p + 1, fun fuel hfuel => ?_⟩
  have hsat := weaves_of_rank none hrank outBuff hfuel hfits e hstanding hready
  cases hweave : weave none net fuel frame p outBuff e with
  | halted =>
    rw [hweave] at hsat
    exact hsat.elim
  | raised e' =>
    rw [hweave] at hsat
    obtain ⟨n, hn, -⟩ := hsat.at_call
    cases hn
  | ok b e' =>
    rw [hweave] at hsat
    obtain ⟨v, hv, hcontent⟩ := hsat.value
    refine ⟨b, e', rfl, hsat.result, ⟨v, hv, fun v' hv' => hv.unique hv', hcontent⟩, hsat.story_given,
      hsat.story_result, hsat.story_others, fun c hc hne => ?_, fun s hs => ?_,
        hsat.kept.paramData hstanding⟩
    · obtain ⟨-, hsame, hstory⟩ := hsat.kept.old c hc hne
      exact ⟨hstory, hsame⟩
    · exact hsat.kept.next s (hstanding.place_lt hs)

theorem neZero_ports : NeZero 3 := ⟨by decide⟩

attribute [local instance] neZero_ports in
/-- A network of three ports: the last one computes a parameter and doubles what the middle one
delivers; this one adds up what it gets from the first one, which is used twice and delivers the
parameter. -/
def doublingPort : Fin 3 → Turnout (Fin 3) ℕ ℕ
  | 0 => .media {
      leadPort_ := [], outTypes_ := [0], resultSlot_ := 0
      paramFun_ := some ⟨1, fun params => (params.getD 1 []).headD 0⟩
      defaultParam := 0
      procFun_ := fun param _ => [param]
      procFun_length := fun _ _ => rfl
      resultSlot_lt := by decide }
  | 1 => .media {
      leadPort_ := [0, 0], outTypes_ := [0, 1], resultSlot_ := 1
      paramFun_ := none
      defaultParam := 0
      procFun_ := fun _ inputs => [inputs.length, inputs.sum]
      procFun_length := fun _ _ => rfl
      resultSlot_lt := by decide }
  | 2 => .param {
      functors_ := [⟨0, fun params => (params.headD []).headD 0⟩], seg := 1
      postProcess_ := some ⟨1, fun params => (params.getD 1 []).map (· + 1)⟩
      delegatePort_ := 1 }

def doubling : Network (Fin 3) ℕ ℕ where
  port := doublingPort
  acyclic p hcycle := by
    have hless : ∀ p lead, lead ∈ (doublingPort p).leads → lead < p := by decide
    have hbelow : ∀ p q, Relation.TransGen (fun lead p => lead ∈ (doublingPort p).leads) q p → q < p := by
      intro p q hq
      induction hq with
      | single hlead => exact hless _ _ hlead
      | tail _ hlead ih => exact Nat.lt_trans ih (hless _ _ hlead)
    exact Nat.lt_irrefl _ (hbelow p p hcycle)

/-- The parameter is seven in the beginning; no buffer has been locked. -/
def sevenAtStart : Evaluation ℕ ℕ where
  buffers := ⟨0, fun _ => .FREE, fun _ => none, []⟩
  params := ⟨[7], fun _ => [], fun _ => none⟩
  calls := 0

theorem doubling_fits : Fits doubling 0 2 := by
  intro q l hused
  have hcases : (q = 2 ∧ l = 0) ∨ (q = 1 ∧ l = 1) ∨ (q = 0 ∧ l = 1) := by
    induction hused with
    | outermost => exact .inl ⟨rfl, rfl⟩
    | lead _ hport hmem ih =>
      rcases ih with ⟨rfl, rfl⟩ | ⟨rfl, rfl⟩ | ⟨rfl, rfl⟩ <;> cases hport
      · right; right
        simp only [mem_cons, not_mem_nil, or_false, or_self] at hmem
        exact ⟨hmem, rfl⟩
      · cases hmem
    | delegate _ hport ih =>
      rcases ih with ⟨rfl, rfl⟩ | ⟨rfl, rfl⟩ | ⟨rfl, rfl⟩ <;> cases hport
      exact .inr (.inl ⟨rfl, rfl⟩)
  rcases hcases with ⟨rfl, rfl⟩ | ⟨rfl, rfl⟩ | ⟨rfl, rfl⟩
  · exact ⟨rfl, by simp, by simp⟩
  · rintro functor ⟨⟩
  · rintro functor ⟨⟩
    exact Nat.le_refl 1

theorem sevenAtStart_standing : Standing sevenAtStart 0 [] := ⟨rfl, by simp, .nil⟩

theorem sevenAtStart_ready : Ready none sevenAtStart := ⟨by simp, by simp, fun _ _ => rfl⟩

/-- The network is evaluated. -/
theorem weave_value_doubling :
    ∃ depth, ∀ fuel ≥ depth, ∃ b e', weave none doubling fuel 0 2 none sevenAtStart = .ok b e' ∧
      Woven doubling 2 [] none sevenAtStart b e' :=
  weave_value doubling 2 0 [] none sevenAtStart doubling_fits sevenAtStart_standing sevenAtStart_ready

/-- **A failure during node evaluation** does no harm exactly when it happens before any buffer has
been locked or any block of parameters attached. -/
theorem unwound_iff [Finite ι] (net : Network ι V P) (p : ι) (frame : ℕ) (blocks : List ℕ)
    (outBuff : Option ℕ)
    (e : Evaluation V P) (hfits : Fits net blocks.length p) (hstanding : Standing e frame blocks)
    (hready : Ready outBuff e) :
    ∃ depth, ∀ fuel ≥ depth, ∀ n e', weave (some n) net fuel frame p outBuff e = .raised e' →
      (Unwound e e' blocks ↔ n < e.calls + leadIn net fuel p) := by
  obtain ⟨rank, hrank⟩ := net.exists_rank
  refine ⟨rank p + 1, fun fuel hfuel n e' hraised => ?_⟩
  have hsat := weaves_of_rank (some n) hrank outBuff hfuel hfits e hstanding hready
  rw [hraised] at hsat
  obtain ⟨m, hm, -, hiff⟩ := hsat.at_call
  cases hm
  exact hiff

/-- The parameter functor raises, and this does no harm; or the postprocessor raises, and this does. -/
theorem unwound_iff_doubling :
    ∃ depth, ∀ fuel ≥ depth,
      (∃ e', weave (some 0) doubling fuel 0 2 none sevenAtStart = .raised e' ∧ Unwound sevenAtStart e' []) ∧
      ∃ e', weave (some 1) doubling fuel 0 2 none sevenAtStart = .raised e' ∧
        ¬ Unwound sevenAtStart e' [] := by
  obtain ⟨depth, hiff⟩ :=
    unwound_iff doubling 2 0 [] none sevenAtStart doubling_fits sevenAtStart_standing sevenAtStart_ready
  refine ⟨depth + 1, fun fuel hfuel => ?_⟩
  obtain ⟨fuel, rfl⟩ : ∃ smaller, fuel = smaller + 1 := ⟨fuel - 1, by omega⟩
  have hfunctor : ∃ e', weave (some 0) doubling (fuel + 1) 0 2 none sevenAtStart = .raised e' := ⟨_, rfl⟩
  have hpost : ∃ e', weave (some 1) doubling (fuel + 1) 0 2 none sevenAtStart = .raised e' := ⟨_, rfl⟩
  obtain ⟨e', hfunctor⟩ := hfunctor
  obtain ⟨e'', hpost⟩ := hpost
  refine ⟨⟨e', hfunctor, ?_⟩, e'', hpost, ?_⟩
  · rw [hiff (fuel + 1) (by omega) 0 e' hfunctor]
    exact Nat.one_pos
  · rw [hiff (fuel + 1) (by omega) 1 e'' hpost]
    exact Nat.lt_irrefl 1

/-- The second output buffer can not be provided: the input buffers and the first output buffer stay
locked, and the chain of parameters refers to the block in the abandoned stack frame. -/
theorem not_unwound_doubling :
    ∃ e', weave (some 9) doubling 3 0 2 none sevenAtStart = .raised e' ∧ e'.buffers.provided = 3 ∧
      (∀ b < 3, ¬ e'.buffers.Released b) ∧ e'.params.next none = some 0 ∧ ¬ Unwound sevenAtStart e' [] := by
  obtain ⟨e', hraised, hleft⟩ := Attempt.exists_raised_of_leaves
    (o := weave (some 9) doubling 3 0 2 none sevenAtStart)
    (p := fun e' => e'.buffers.provided == 3 && e'.params.next none == some 0 &&
      (List.range 3).all fun b => decide (.release b ∉ e'.buffers.log)) (by decide +kernel)
  simp only [Bool.and_eq_true, beq_iff_eq, all_eq_true, mem_range, decide_eq_true_eq] at hleft
  obtain ⟨⟨hprovided, hlink⟩, hlocked⟩ := hleft
  refine ⟨e', hraised, hprovided, hlocked, hlink, fun hunwound => ?_⟩
  have hsame := hunwound.2.1 none mem_cons_self
  rw [hlink] at hsame
  cases hsame

end Lumiera.Steam.Engine
