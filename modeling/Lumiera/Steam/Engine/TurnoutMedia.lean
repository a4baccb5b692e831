import Lumiera.Steam.Engine.TurnoutPhases

/-! # Weaving media

The phases of the media weaving pattern put together: when the lead ports can be woven, then the
port can. All the buffers it used are done with, save for the result. An exception does no harm as
long as no buffer has been locked; from then on there is always a buffer which is not released any
more. -/

namespace Lumiera.Steam.Engine

open Lib (HeteroData)

universe u v w

variable {ι : Type u} {V : Type v} {P : Type w} {net : Network ι V P}
variable {raisesAt : Option ℕ} {frame inner first : ℕ} {given : Option ℕ}
  {e e' e'' : Evaluation V P} {blocks : List ℕ}
variable {leads : List ι} {inBuff outBuff : List ℕ} {resultSlot : ℕ}

/-- **An exception after the input data are there**: it does no harm only when there are no input
data, and no buffer has been locked. -/
theorem Pulled.shedRaised (h : Pulled net raisesAt inner first blocks e leads inBuff e') (hle : frame ≤ inner)
    (hstanding : Standing e frame blocks) (hunborn : ∀ b, e.buffers.provided ≤ b → e.buffers.story b = [])
    (hlength : leads.length = inBuff.length) (hfirst : leads = [] → first = 1)
    (hraised : ShedRaised raisesAt e' e'') :
    Interrupted raisesAt frame first blocks e e'' := by
  have hkept : Kept raisesAt frame none e e' := h.kept.weaken hle none
  obtain ⟨n, hn, hcall⟩ := hraised.at_call
  have hprovided := hraised.provided_le
  have hnext : ∀ s ∈ places blocks, e''.params.next s = e.params.next s := by
    intro s hs
    rw [hraised.params]
    exact hkept.next s (hstanding.place_lt hs)
  refine ⟨hkept.provided_le.trans hprovided, fun b hb hrel => ?_, ?_, fun a ha => ?_,
    fun s hs _ => hnext s hs, n, hn,
    ?_, ?_⟩
  · exact (hkept.released hb (by simp)).mp (hraised.released b hrel)
  · rw [hraised.params]
    exact hkept.front
  · rw [hraised.params]
    exact hkept.block a ha
  · have := hkept.calls_le
    omega
  · by_cases hnil : leads = []
    · have hbegin := h.begin_eq hnil
      subst hbegin
      rw [hfirst hnil]
      constructor
      · -- whatever had been locked would not have been released
        intro hunwound
        by_contra hlate
        have hlt : e'.buffers.provided < e''.buffers.provided := by omega
        have hrel := hraised.released _ (hunwound.1 _ (Nat.le_refl _) hlt)
        rw [WorkingBuffers.released_iff, hunborn _ (Nat.le_refl _)] at hrel
        cases hrel
      · intro hearly
        refine ⟨fun b hb hlt => absurd hlt (by omega), hnext, ?_⟩
        rw [Evaluation.paramData, Evaluation.paramData, hraised.params]
    · refine iff_of_false (fun hunwound => ?_) ?_
      · have hne : inBuff ≠ [] := by
          rintro rfl
          exact hnil (List.eq_nil_of_length_eq_zero hlength)
        obtain ⟨b, hb⟩ := List.exists_mem_of_ne_nil _ hne
        obtain ⟨hble, hblt⟩ := h.fresh b hb
        have hreleased := hunwound.1 b hble (Nat.lt_of_lt_of_le hblt hprovided)
        exact (h.story_in b hb).not_released (hraised.released b hreleased)
      · have := h.first_le hnil
        omega

theorem Shed.mem_iff (h : Shed raisesAt frame resultSlot given e outBuff e') {b : ℕ} (hb : b ∈ outBuff) :
    given = some b ∨ e.buffers.provided ≤ b ∧ b < e'.buffers.provided := by
  obtain ⟨i, hi⟩ := List.mem_iff_getElem?.mp hb
  rcases h.slot i b hi with ⟨heq, -⟩ | ⟨-, hfresh⟩
  · exact .inl heq
  · exact .inr hfresh

variable {m : MediaWeavingPattern ι V P} {p : ι}

/-- The input and the output are there, and the function has run; all buffers are done with, save
for the result. -/
theorem Pulled.done
    (h : Pulled net raisesAt inner first blocks e m.leadPort_ inBuff e') (hport : net.port p = .media m)
    (hle : frame ≤ inner) (hready : Ready given e) (hfirst : m.leadPort_ = [] → first = 1)
    (hshed : Shed raisesAt frame m.resultSlot_ given e' outBuff e'')
    (hstill : ∀ n, raisesAt = some n → e''.calls ≤ n → e''.calls + 1 ≤ n) {inputs : List V}
    (hinputs : List.Forall₂ (Evaluates net (e.paramData blocks)) m.leadPort_ inputs) {b : ℕ}
    (hb : outBuff[m.resultSlot_]? = some b) {buffers : WorkingBuffers V}
    (hprovided : buffers.provided = e''.buffers.provided)
    (hothers : ∀ c, c ∉ inBuff → c ∉ outBuff → buffers.state c = e''.buffers.state c ∧
      buffers.content c = e''.buffers.content c ∧ buffers.story c = e''.buffers.story c)
    (hins : ∀ c ∈ inBuff, buffers.story c = e''.buffers.story c ++ [.process inBuff outBuff, .release c])
    (houts : ∀ j c, outBuff[j]? = some c →
      buffers.story c = e''.buffers.story c ++
        .process inBuff outBuff :: .emit c :: (if j = m.resultSlot_ then [] else [.release c]) ∧
      (j = m.resultSlot_ →
        buffers.content c = (m.procFun_ (m.paramValue (e.paramData blocks)) inputs)[j]?)) :
    Done net raisesAt frame first blocks p given e b
      { e'' with calls := e''.calls + 1, buffers := buffers } := by
  have hpull : Kept raisesAt frame none e e' := h.kept.weaken hle none
  have hkept : Kept raisesAt frame none e e'' := hpull.trans hshed.kept
  have hinbelow : ∀ c ∈ inBuff, c < e'.buffers.provided := fun c hc => (h.fresh c hc).2
  have hdisjoint : ∀ c ∈ inBuff, c ∉ outBuff := by
    intro c hin hout
    have hfresh := h.fresh c hin
    rcases hshed.mem_iff hout with hgiven | hnew
    · have := hready.given_lt c hgiven
      omega
    · omega
  -- a buffer which is older than the evaluation can only be the given one
  have holdout : ∀ c < e.buffers.provided, given ≠ some c → c ∉ outBuff := by
    intro c hc hne hmem
    rcases hshed.mem_iff hmem with hgiven | hnew
    · exact hne hgiven
    · have := hpull.provided_le
      omega
  have holdin : ∀ c < e.buffers.provided, c ∉ inBuff := fun c hc hmem => absurd (h.fresh c hmem).1 (by omega)
  have hresult := hshed.slot m.resultSlot_ b hb
  have hbout := List.mem_of_getElem? hb
  obtain ⟨hbstory, hbcontent⟩ := houts m.resultSlot_ b hb
  rw [if_pos rfl] at hbstory
  have hbnot : b ∉ inBuff := fun hin => hdisjoint b hin hbout
  refine ⟨?_, ?_, ?_, fun hgiven => ?_, fun hgiven => ?_, fun c hcle hclt hne => ?_, ?_⟩
  · refine ⟨hprovided ▸ hkept.provided_le, fun c hc hne => ?_, fun c hc => ?_, hkept.front,
      hkept.block, hkept.next,
      Nat.le_succ_of_le hkept.calls_le, fun n hn hn' => hstill n hn (hkept.quiet n hn hn')⟩
    · obtain ⟨hstate, hcontent, hstory⟩ := hothers c (holdin c hc) (holdout c hc hne)
      obtain ⟨hstate', hcontent', hstory'⟩ := hkept.old c hc (by simp)
      exact ⟨hstate.trans hstate', hcontent.trans hcontent', hstory.trans hstory'⟩
    · simp only [hprovided] at hc
      have hcin : c ∉ inBuff := by
        intro hmem
        have := hinbelow c hmem
        have := hshed.kept.provided_le
        omega
      have hcout : c ∉ outBuff := by
        intro hmem
        rcases hshed.mem_iff hmem with hgiven | hnew
        · have := hready.given_lt c hgiven
          have := hkept.provided_le
          omega
        · omega
      exact (hothers c hcin hcout).2.2.trans (hkept.unborn c hc)
  · rcases hresult with ⟨hgiven, -⟩ | ⟨hgiven | hslot, hfresh⟩
    · exact .inl hgiven
    · refine .inr ⟨hgiven, hpull.provided_le.trans hfresh.1, ?_⟩
      simpa only [hprovided] using hfresh.2
    · exact absurd rfl hslot
  · obtain ⟨v, hv⟩ : ∃ v, (m.procFun_ (m.paramValue (e.paramData blocks)) inputs)[m.resultSlot_]? =
      some v := by
      refine ⟨_, List.getElem?_eq_getElem ?_⟩
      rw [m.procFun_length]
      exact m.resultSlot_lt
    refine ⟨v, .media hport hinputs.length_eq.symm (fun i lead input hlead hinput => ?_) hv,
      (hbcontent rfl).trans hv⟩
    obtain ⟨hi, rfl⟩ := List.getElem?_eq_some_iff.mp hlead
    obtain ⟨hi', rfl⟩ := List.getElem?_eq_some_iff.mp hinput
    exact hinputs.get hi hi'
  · have hsame := (hkept.old b (hready.given_lt b hgiven) (by simp)).2.2
    exact ⟨inBuff, outBuff, hbout, hbnot, by rw [hbstory, hsame]⟩
  · rcases hresult with ⟨hgiven', -⟩ | ⟨-, hfresh⟩
    · rw [hgiven] at hgiven'
      cases hgiven'
    · obtain ⟨-, -, type, hstory⟩ := hshed.locked b hfresh.1 hfresh.2
      exact ⟨type, inBuff, outBuff, hbout, hbnot, by rw [hbstory, hstory]; rfl⟩
  · simp only [hprovided] at hclt
    by_cases hinput : c < e'.buffers.provided
    · have hsame := (hshed.kept.old c hinput (by simp)).2.2
      have hcout : c ∉ outBuff := by
        intro hmem
        rcases hshed.mem_iff hmem with hgiven | hnew
        · have := hready.given_lt c hgiven
          omega
        · omega
      by_cases hcin : c ∈ inBuff
      · -- input of this port
        obtain ⟨type, ins, outs, hwritten, hnotread, hstory⟩ := h.story_in c hcin
        refine ⟨type, ins, outs, hwritten, hnotread, .inr ⟨inBuff, outBuff, hcin, hcout, ?_⟩⟩
        rw [hins c hcin, hsame, hstory]
        rfl
      · -- done with by a lead port
        have hcomplete := h.story_others c hcle hinput hcin
        rw [← hsame] at hcomplete
        simpa only [(hothers c hcin hcout).2.2] using hcomplete
    · -- surplus output of this port
      obtain ⟨hmem, -, type, hstory⟩ := hshed.locked c (Nat.le_of_not_lt hinput) hclt
      obtain ⟨j, hj⟩ := List.mem_iff_getElem?.mp hmem
      have hjne : j ≠ m.resultSlot_ := by
        rintro rfl
        exact hne (Option.some.inj (hj.symm.trans hb))
      have hcstory := (houts j c hj).1
      rw [if_neg hjne, hstory] at hcstory
      exact ⟨type, inBuff, outBuff, hmem, fun hin => hdisjoint c hin hmem, .inl hcstory⟩
  · simp only
    by_cases hnil : m.leadPort_ = []
    · have := hfirst hnil
      have := hkept.calls_le
      omega
    · have := h.first_le hnil
      have := hshed.kept.calls_le
      omega

theorem Pulled.ready (h : Pulled net raisesAt inner first blocks e leads inBuff e') (hready : Ready given e) :
    Ready given e' := by
  refine ⟨fun b hb => ?_, fun b hb => ?_, h.kept.unborn_eq_nil hready.unborn⟩
  · exact Nat.lt_of_lt_of_le (hready.given_lt b hb) h.kept.provided_le
  · rw [(h.kept.old b (hready.given_lt b hb) (by simp)).1]
    exact hready.given_locked b hb

/-- Processing the data, once the input and the output are there. -/
theorem Pulled.finish_sat
    (h : Pulled net raisesAt inner first blocks e m.leadPort_ inBuff e') (hport : net.port p = .media m)
    (hle : frame ≤ inner) (hstanding : Standing e frame blocks) (hready : Ready given e)
    (hfirst : m.leadPort_ = [] → first = 1) (hinlen : m.leadPort_.length = inBuff.length)
    (hshed : Shed raisesAt frame m.resultSlot_ given e' outBuff e'')
    (houtlen : outBuff.length = m.outTypes_.length) :
    ((m.weft raisesAt (m.paramValue (e.paramData blocks)) inBuff outBuff e'').bind fun _ e =>
      m.fix inBuff outBuff e).Sat
      (Done net raisesAt frame first blocks p given e) (Interrupted raisesAt frame first blocks e) := by
  have hready' : Ready given e' := h.ready hready
  obtain ⟨inputs, hinputs, hholds⟩ := h.values
  have hvalues := (hholds.congr fun b hb => (hshed.kept.old b (h.fresh b hb).2 (by simp)).2.1).mapM
  have hdisjoint : ∀ b ∈ inBuff, b ∉ outBuff := by
    intro b hin hout
    have hfresh := h.fresh b hin
    rcases hshed.mem_iff hout with hgiven | hnew
    · have := hready.given_lt b hgiven
      omega
    · omega
  have hlocked : ∀ b ∈ outBuff, e''.buffers.state b = .LOCKED := by
    intro b hout
    rcases hshed.mem_iff hout with hgiven | hnew
    · rw [(hshed.kept.old b (hready'.given_lt b hgiven) (by simp)).1]
      exact hready'.given_locked b hgiven
    · exact (hshed.locked b hnew.1 hnew.2).2.1
  obtain ⟨w₁, w', hprocess, hemit, hprovided, hothers, hins, houts⟩ :=
    WorkingBuffers.run_spec (m.procFun_ (m.paramValue (e.paramData blocks))) m.resultSlot_
      hvalues h.nodup hshed.nodup hdisjoint hlocked (by rw [m.procFun_length, houtlen])
  obtain ⟨b, hb⟩ : ∃ b, outBuff[m.resultSlot_]? = some b :=
    ⟨_, List.getElem?_eq_getElem (by rw [houtlen]; exact m.resultSlot_lt)⟩
  have hweft : (m.weft raisesAt (m.paramValue (e.paramData blocks)) inBuff outBuff e'').Sat
      (fun _ e₅ => e₅ = { e'' with calls := e''.calls + 1, buffers := w₁ } ∧
        ∀ n, raisesAt = some n → e''.calls ≤ n → e''.calls + 1 ≤ n)
      (Interrupted raisesAt frame first blocks e) := by
    refine (mayRaise_sat raisesAt e'').bind (fun e₄ hraised => ?_) fun _ e₄ hcalled => ?_
    · exact h.shedRaised hle hstanding hready.unborn hinlen hfirst (hshed.raised hready' hraised)
    · obtain ⟨rfl, hstill⟩ := hcalled
      simp only [hprocess]
      exact ⟨rfl, hstill⟩
  refine hweft.bind (fun _ hinter => hinter) fun _ e₅ hran => ?_
  obtain ⟨rfl, hstill⟩ := hran
  simp only [MediaWeavingPattern.fix, hemit, hb]
  exact h.done hport hle hready hfirst hshed hstill hinputs hb hprovided hothers hins houts

/-! ## The whole sequence -/

theorem Interrupted.after {calls : ℕ} (h : Interrupted raisesAt frame first blocks e' e'')
    (hcalled : Called raisesAt calls e e') : Interrupted raisesAt frame (calls + first) blocks e e'' := by
  obtain ⟨n, hn, hle, hiff⟩ := h.at_call
  obtain ⟨rfl, -⟩ := hcalled
  simp only at hle hiff
  exact ⟨h.provided_le, h.released, h.front, h.block, h.next, n, hn, by omega, hiff.trans (by omega)⟩

theorem Done.after {calls b : ℕ} (h : Done net raisesAt frame first blocks p given e' b e'')
    (hcalled : Called raisesAt calls e e') : Done net raisesAt frame (calls + first) blocks p given e b e'' := by
  have hkept : Kept raisesAt frame given e e'' := hcalled.kept.trans h.kept
  obtain ⟨rfl, -⟩ := hcalled
  have hfirst := h.first_le
  simp only at hfirst
  exact ⟨hkept, h.result, h.value, h.story_given, h.story_result, h.story_others, by omega⟩

theorem Interrupted.weaken (h : Interrupted raisesAt inner first blocks e e') (hle : frame ≤ inner) :
    Interrupted raisesAt frame first blocks e e' :=
  ⟨h.provided_le, h.released, h.front, fun a ha => h.block a (Nat.lt_of_lt_of_le ha hle), h.next, h.at_call⟩

theorem Standing.inside (h : Standing e frame blocks) (hle : frame ≤ inner) : Standing e inner blocks :=
  ⟨h.linked, fun b hb => Nat.lt_of_lt_of_le (h.below b hb) hle, h.nodup⟩

/-- A media pattern is woven when its lead ports are. -/
theorem MediaWeavingPattern.weaves {leadFirst : ι → ℕ}
    {weave : ι → Evaluation V P → Attempt (Evaluation V P) ℕ} (hport : net.port p = .media m)
    (hbuilt : (Turnout.media m).BuiltFor blocks.length) (hle : frame ≤ inner)
    (hweave : ∀ lead ∈ m.leadPort_, Weaves net raisesAt inner (leadFirst lead) blocks lead none
    (weave lead)) :
    Weaves net raisesAt frame
      (m.mountCalls + match m.leadPort_ with
        | [] => 1
        | lead :: _ => leadFirst lead) blocks p given fun e =>
      (m.mount raisesAt e).bind fun param e =>
      (m.pull weave e).bind fun inBuff e =>
      (m.shed raisesAt given e).bind fun outBuff e =>
      (m.weft raisesAt param inBuff outBuff e).bind fun _ e =>
      m.fix inBuff outBuff e := by
  intro e hstanding hready
  generalize hrest : (match m.leadPort_ with
    | [] => 1
    | lead :: _ => leadFirst lead) = first
  refine (MediaWeavingPattern.mount_sat hstanding hbuilt).bind
    (fun e₁ hraised => hraised.interrupted (Nat.le_add_right _ _)) fun param e₁ hmount => ?_
  obtain ⟨rfl, hcalled⟩ := hmount
  have hkept₁ : Kept raisesAt frame none e e₁ := hcalled.kept
  have hstanding₁ := hkept₁.standing hstanding
  have hready₁ : Ready given e₁ := by
    obtain ⟨rfl, -⟩ := hcalled
    exact ⟨hready.given_lt, hready.given_locked, hready.unborn⟩
  rw [← hkept₁.paramData hstanding]
  -- everything after mounting, seen from there
  suffices hsat : ((m.pull weave e₁).bind fun inBuff e => (m.shed raisesAt given e).bind fun outBuff e =>
      (m.weft raisesAt (m.paramValue (e₁.paramData blocks)) inBuff outBuff e).bind fun _ e =>
        m.fix inBuff outBuff e).Sat
      (Done net raisesAt frame first blocks p given e₁) (Interrupted raisesAt frame first blocks e₁) from
    hsat.mono (fun b e' hdone => hdone.after hcalled) fun e' hinter => hinter.after hcalled
  have hfirst : ∀ lead ∈ m.leadPort_.head?, first = leadFirst lead := by
    intro lead hlead
    cases hleads : m.leadPort_ <;> simp_all
  have hnil : m.leadPort_ = [] → first = 1 := by
    intro hleads
    simp [← hrest, hleads]
  refine (MediaWeavingPattern.pull_sat hweave hfirst (hstanding₁.inside hle) hready₁.unborn).bind
    (fun e₂ hinter => hinter.weaken hle) fun inBuff e₂ hpulled => ?_
  have hready₂ : Ready given e₂ := hpulled.ready hready₁
  have hlength : m.leadPort_.length = inBuff.length := by
    obtain ⟨inputs, hinputs, hholds⟩ := hpulled.values
    exact hinputs.length_eq.trans hholds.length_eq.symm
  refine (MediaWeavingPattern.shed_sat frame hready₂).bind (fun e₃ hraised => ?_)
    fun outBuff e₃ hshed => ?_
  · exact hpulled.shedRaised hle hstanding₁ hready₁.unborn hlength hnil hraised
  · exact hpulled.finish_sat hport hle hstanding₁ hready₁ hnil hlength hshed.2 hshed.1

end Lumiera.Steam.Engine
