import Lumiera.Lib.HeteroData
import Lumiera.Steam.Engine.WorkingBuffers
import Mathlib.Data.Set.Card
import Mathlib.Data.Set.Finite.Lattice

/-! # Weaving patterns (`steam/engine/turnout.hpp`)

A port computes its result when it is asked to **weave**. The turnout behind the port proceeds in
fixed steps, and a weaving pattern defines what these steps are. The *media weaving pattern*
retrieves input data by weaving its lead ports, provides buffers for the output and invokes a
processing function. The *param weaving pattern* computes a block of parameters, attaches it to the
parameters of the turnout system, and weaves its delegate port.

A functor or the allocation of a buffer can raise an exception. All these calls are counted in the
course of an evaluation, and `raisesAt` is the number of the one which raises. -/

namespace Lumiera.Steam.Engine

open Lib (HeteroData)

universe u v w

/-- The state of an evaluation: the working buffers, the parameters of the turnout system, and the
number of calls so far which might have raised an exception. -/
structure Evaluation (V : Type v) (P : Type w) where
  buffers : WorkingBuffers V
  /-- `TurnoutSystem::invoParam_`, with what is chained to it. -/
  params : HeteroData P
  calls : ℕ

/-- A functor on the turnout system: it uses accessors for a chain with this number of blocks after
the front. -/
structure ChainFunctor (P : Type w) (R : Type w) where
  segments : ℕ
  apply : List (List P) → R

/-- The weaving pattern for media processing. There is a lead port for each input of the processing
function, and a type of buffers for each output. -/
structure MediaWeavingPattern (ι : Type u) (V : Type v) (P : Type w) where
  leadPort_ : List ι
  outTypes_ : List ℕ
  resultSlot_ : ℕ
  /-- The parameter functor, when it is activated. -/
  paramFun_ : Option (ChainFunctor P P)
  /-- The parameter of the processing function otherwise. -/
  defaultParam : P
  procFun_ : P → List V → List V
  procFun_length : ∀ param inputs, (procFun_ param inputs).length = outTypes_.length
  resultSlot_lt : resultSlot_ < outTypes_.length

/-- The weaving pattern for computing parameters. The data block expects this number of segments in
the chain; the post-processing functor computes the data to be found in the block thereafter. -/
structure ParamWeavingPattern (ι : Type u) (P : Type w) where
  functors_ : List (ChainFunctor P P)
  seg : ℕ
  postProcess_ : Option (ChainFunctor P (List P))
  delegatePort_ : ι

/-- A port with its weaving pattern. -/
inductive Turnout (ι : Type u) (V : Type v) (P : Type w)
  | media (pattern : MediaWeavingPattern ι V P)
  | param (pattern : ParamWeavingPattern ι P)

namespace Turnout

variable {ι : Type u} {V : Type v} {P : Type w}

/-- The ports this one is connected to. -/
def leads : Turnout ι V P → List ι
  | media pattern => pattern.leadPort_
  | param pattern => [pattern.delegatePort_]

end Turnout

/-- A network of ports; there are no cycles. -/
structure Network (ι : Type u) (V : Type v) (P : Type w) where
  port : ι → Turnout ι V P
  acyclic : ∀ p, ¬ Relation.TransGen (fun lead p => lead ∈ (port p).leads) p p

variable {ι : Type u} {V : Type v} {P : Type w} (raisesAt : Option ℕ)

/-- A call which might raise an exception. -/
def mayRaise (e : Evaluation V P) : Attempt (Evaluation V P) Unit :=
  let called := { e with calls := e.calls + 1 }
  if raisesAt = some e.calls then .raised called else .ok () called

/-- Invoke a functor; the program is halted when the chain of parameters is shorter than expected. -/
def ChainFunctor.invoke {R : Type w} (functor : ChainFunctor P R) (e : Evaluation V P) :
    Attempt (Evaluation V P) R :=
  (mayRaise raisesAt e).bind fun _ e =>
    match e.params.data functor.segments with
    | some data => .ok (functor.apply data) e
    | none => .halted

/-- Lock a buffer of this type (`BuffDescr::lockBuffer`). -/
def lockBuffer (type : ℕ) (e : Evaluation V P) : Attempt (Evaluation V P) ℕ :=
  (mayRaise raisesAt e).bind fun _ e => .ok e.buffers.provided { e with buffers := e.buffers.lockBuffer type }

namespace MediaWeavingPattern

variable (m : MediaWeavingPattern ι V P)

/-- Build the feed: this determines the parameter. -/
def mount (e : Evaluation V P) : Attempt (Evaluation V P) P :=
  match m.paramFun_ with
  | some paramFun => paramFun.invoke raisesAt e
  | none => .ok m.defaultParam e

/-- Retrieve input data from the lead ports. -/
def pull (weave : ι → Evaluation V P → Attempt (Evaluation V P) ℕ) (e : Evaluation V P) :
    Attempt (Evaluation V P) (List ℕ) :=
  Attempt.forEach weave m.leadPort_ e

/-- The buffer for an output slot: the given one for the result slot, or else a new one. -/
def outputSlot (resultSlot : ℕ) (outBuff : Option ℕ) (slot : ℕ × ℕ) (e : Evaluation V P) :
    Attempt (Evaluation V P) ℕ :=
  match outBuff with
  | some buffer => if slot.2 = resultSlot then .ok buffer e else lockBuffer raisesAt slot.1 e
  | none => lockBuffer raisesAt slot.1 e

/-- Provide the output buffers. -/
def shed (outBuff : Option ℕ) (e : Evaluation V P) : Attempt (Evaluation V P) (List ℕ) :=
  Attempt.forEach (outputSlot raisesAt m.resultSlot_ outBuff) m.outTypes_.zipIdx e

/-- Process the data; there is no way to read from a buffer which has no data. -/
def weft (param : P) (inBuff outBuff : List ℕ) (e : Evaluation V P) : Attempt (Evaluation V P) Unit :=
  (mayRaise raisesAt e).bind fun _ e =>
    match e.buffers.process inBuff outBuff (m.procFun_ param) with
    | some buffers => .ok () { e with buffers := buffers }
    | none => .halted

/-- Release the input buffers, emit the output buffers, and release those which are not the result. -/
def fix (inBuff outBuff : List ℕ) (e : Evaluation V P) : Attempt (Evaluation V P) ℕ :=
  (((e.buffers.releaseAll inBuff).emitOutputs m.resultSlot_ 0 outBuff).within fun buffers =>
    { e with buffers := buffers }).bind fun _ e =>
      match outBuff[m.resultSlot_]? with
      | some result => .ok result e
      | none => .halted

end MediaWeavingPattern

namespace ParamWeavingPattern

variable (d : ParamWeavingPattern ι P)

/-- Compute the parameters, and place them into a data block in the current stack frame. -/
def pull (frame : ℕ) (e : Evaluation V P) : Attempt (Evaluation V P) Unit :=
  (Attempt.forEach (ChainFunctor.invoke raisesAt) d.functors_ e).bind fun data e =>
    .ok () { e with params := e.params.emplace frame data }

/-- Attach the data block, and possibly post-process the data. -/
def shed (frame : ℕ) (e : Evaluation V P) : Attempt (Evaluation V P) Unit :=
  match e.params.linkInto d.seg frame with
  | none => .halted
  | some params =>
    match d.postProcess_ with
    | none => .ok () { e with params := params }
    | some postProcess =>
      (postProcess.invoke raisesAt { e with params := params }).bind fun data e =>
        .ok () { e with params := { e.params with block := Function.update e.params.block frame data } }

/-- Weave the delegate port. -/
def weft (weave : ι → Option ℕ → Evaluation V P → Attempt (Evaluation V P) ℕ) (outBuff : Option ℕ)
    (e : Evaluation V P) : Attempt (Evaluation V P) ℕ :=
  weave d.delegatePort_ outBuff e

/-- Detach the data block. -/
def fix (frame result : ℕ) (e : Evaluation V P) : Attempt (Evaluation V P) ℕ :=
  match e.params.detachFrom d.seg frame with
  | none => .halted
  | some params => .ok result { e with params := params }

end ParamWeavingPattern

/-- **`Turnout::weave`**: mount, pull, shed, weft, fix. Each activation has its own stack frame; the
recursion is limited by the size of the stack. -/
def weave (net : Network ι V P) : ℕ → ℕ → ι → Option ℕ → Evaluation V P → Attempt (Evaluation V P) ℕ
  | 0, _, _, _, _ => .halted
  | fuel + 1, frame, p, outBuff, e =>
    match net.port p with
    | .media m =>
      (m.mount raisesAt e).bind fun param e =>
      (m.pull (fun lead e => weave net fuel (frame + 1) lead none e) e).bind fun inBuff e =>
      (m.shed raisesAt outBuff e).bind fun outBuff e =>
      (m.weft raisesAt param inBuff outBuff e).bind fun _ e =>
      m.fix inBuff outBuff e
    | .param d =>
      (d.pull raisesAt frame e).bind fun _ e =>
      (d.shed raisesAt frame e).bind fun _ e =>
      (d.weft (weave net fuel (frame + 1)) outBuff e).bind fun result e =>
      d.fix frame result e

/-! ## Networks of ports

The **value** of a port, as a mathematical function of the parameters in effect: the processing
function applied to the values of the lead ports, with the parameter drawn from these parameters,
and for a param weaving pattern the value of the delegate port with one further block of parameters.
A port **fits** when each pattern used on the way was built for the chain of parameters in effect
there. -/

/-- The functor as a function of all parameters in effect, of which it sees the first blocks. -/
def ChainFunctor.value {R : Type w} (functor : ChainFunctor P R) (params : List (List P)) : R :=
  functor.apply (params.take (functor.segments + 1))

/-- The parameter of the processing function. -/
def MediaWeavingPattern.paramValue (m : MediaWeavingPattern ι V P) (params : List (List P)) : P :=
  match m.paramFun_ with
  | some paramFun => paramFun.value params
  | none => m.defaultParam

/-- The data block, as computed by the functors. -/
def ParamWeavingPattern.computed (d : ParamWeavingPattern ι P) (params : List (List P)) : List P :=
  d.functors_.map (·.value params)

/-- The data block after post-processing. -/
def ParamWeavingPattern.dataBlock (d : ParamWeavingPattern ι P) (params : List (List P)) : List P :=
  match d.postProcess_ with
  | some postProcess => postProcess.value (params ++ [d.computed params])
  | none => d.computed params

/-- **The value of a port**, with these blocks of parameters in effect. -/
inductive Evaluates (net : Network ι V P) : List (List P) → ι → V → Prop
  | media {params : List (List P)} {p : ι} {m : MediaWeavingPattern ι V P} {inputs : List V} {value : V} :
      net.port p = .media m → inputs.length = m.leadPort_.length →
      (∀ (i : ℕ) lead input, m.leadPort_[i]? = some lead → inputs[i]? = some input →
        Evaluates net params lead input) →
      (m.procFun_ (m.paramValue params) inputs)[m.resultSlot_]? = some value → Evaluates net params p value
  | param {params : List (List P)} {p : ι} {d : ParamWeavingPattern ι P} {value : V} :
      net.port p = .param d → Evaluates net (params ++ [d.dataBlock params]) d.delegatePort_ value →
      Evaluates net params p value

theorem Evaluates.unique {net : Network ι V P} {params : List (List P)} {p : ι} {value other : V}
    (h : Evaluates net params p value) (hother : Evaluates net params p other) : other = value := by
  induction h generalizing other with
  | @media params p m inputs value hport hlength hinputs hvalue ih =>
    cases hother with
    | @media _ _ m' inputs' _ hport' hlength' hinputs' hvalue' =>
      cases hport.symm.trans hport'
      have heq : inputs' = inputs := by
        apply List.ext_getElem?
        intro i
        by_cases hi : i < m.leadPort_.length
        · have hinput := List.getElem?_eq_getElem (show i < inputs.length by omega)
          have hinput' := List.getElem?_eq_getElem (show i < inputs'.length by omega)
          rw [hinput, hinput']
          exact congrArg some (ih i _ _ (List.getElem?_eq_getElem hi) hinput
            (hinputs' i _ _ (List.getElem?_eq_getElem hi) hinput'))
        · rw [List.getElem?_eq_none (by omega), List.getElem?_eq_none (by omega)]
      rw [heq, hvalue] at hvalue'
      exact (Option.some.inj hvalue').symm
    | param hport' => cases hport.symm.trans hport'
  | param hport _ ih =>
    cases hother with
    | media hport' => cases hport.symm.trans hport'
    | param hport' hvalue' =>
      cases hport.symm.trans hport'
      exact ih hvalue'

/-! ## What is used on the way -/

/-- A port is used, with this number of blocks chained to the parameters, when the given one is. -/
inductive Used (net : Network ι V P) (p₀ : ι) (k₀ : ℕ) : ι → ℕ → Prop
  | outermost : Used net p₀ k₀ p₀ k₀
  | lead {p q : ι} {k : ℕ} {m : MediaWeavingPattern ι V P} :
      Used net p₀ k₀ p k → net.port p = .media m → q ∈ m.leadPort_ → Used net p₀ k₀ q k
  | delegate {p : ι} {k : ℕ} {d : ParamWeavingPattern ι P} :
      Used net p₀ k₀ p k → net.port p = .param d → Used net p₀ k₀ d.delegatePort_ (k + 1)

/-- The pattern was built for a chain of parameters with this number of blocks after the front. -/
def Turnout.BuiltFor (k : ℕ) : Turnout ι V P → Prop
  | media m => ∀ functor ∈ m.paramFun_, functor.segments ≤ k
  | param d => d.seg = k + 1 ∧ (∀ functor ∈ d.functors_, functor.segments ≤ k) ∧
      ∀ functor ∈ d.postProcess_, functor.segments ≤ k + 1

/-- **Each pattern is built for the parameter chain in effect where it is used.** -/
def Fits (net : Network ι V P) (k : ℕ) (p : ι) : Prop := ∀ q l, Used net p k q l → (net.port q).BuiltFor l

variable {net : Network ι V P} {p q : ι} {k : ℕ}

theorem Used.trans {p₀ : ι} {k₀ l : ℕ} (h : Used net p₀ k₀ p k) (hnext : Used net p k q l) : Used net p₀ k₀ q l := by
  induction hnext with
  | outermost => exact h
  | lead _ hport hmem ih => exact ih.lead hport hmem
  | delegate _ hport ih => exact ih.delegate hport

theorem Fits.builtFor (h : Fits net k p) : (net.port p).BuiltFor k := h p k .outermost

theorem Fits.lead (h : Fits net k p) {m : MediaWeavingPattern ι V P} (hport : net.port p = .media m)
    (hq : q ∈ m.leadPort_) : Fits net k q :=
  fun r l hr => h r l ((Used.outermost.lead hport hq).trans hr)

theorem Fits.delegate (h : Fits net k p) {d : ParamWeavingPattern ι P} (hport : net.port p = .param d) :
    Fits net (k + 1) d.delegatePort_ :=
  fun r l hr => h r l ((Used.outermost.delegate hport).trans hr)

/-! ## The depth of a finite network -/

/-- Ports can be ranked: each one above those it is connected to. -/
theorem Network.exists_rank [Finite ι] (net : Network ι V P) :
    ∃ rank : ι → ℕ, ∀ p, ∀ q ∈ (net.port p).leads, rank q < rank p := by
  refine ⟨fun p => Set.ncard { q | Relation.TransGen (fun lead p => lead ∈ (net.port p).leads) q p }, ?_⟩
  intro p q hq
  apply Set.ncard_lt_ncard _ (Set.toFinite _)
  refine ⟨fun r hr => .tail hr hq, fun hsub => net.acyclic q ?_⟩
  exact hsub (.single hq)

/-! ## How far an exception does no harm -/

/-- The number of calls when a media pattern is mounted. -/
def MediaWeavingPattern.mountCalls (m : MediaWeavingPattern ι V P) : ℕ := if m.paramFun_.isSome then 1 else 0

/-- **The number of calls before the first buffer has been locked or a block of parameters
attached.** This is along the first leads: the parameter functors of the media patterns; then either
the functors of a param pattern, or for a media pattern without leads the first call thereafter. -/
def leadIn (net : Network ι V P) : ℕ → ι → ℕ
  | 0, _ => 0
  | fuel + 1, p =>
    match net.port p with
    | .media m =>
      m.mountCalls + match m.leadPort_ with
        | [] => 1
        | first :: _ => leadIn net fuel first
    | .param d => d.functors_.length

end Lumiera.Steam.Engine
