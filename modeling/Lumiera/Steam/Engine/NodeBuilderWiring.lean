import Lumiera.Steam.Engine.NodeBuilder
import Mathlib.Data.List.Forall2

/-! # Nodes are wired as requested

What the calls of a builder chain ask for is recorded beside the builder: the lead nodes added, and for each
port the *plan*, with the lead ports connected explicitly, in order. A port is **wired as planned** when its
input slots are connected to these lead ports and all the further ones to the default port of the lead node
with the number of the slot. In whatever order the builder is used, the completed ports are wired as planned,
and the list of lead nodes grows only at its end, with one entry for each lead added and at most one more
entry for a node which is given by reference to be connected.

There are three gaps, all at the point where a port is completed. A port whose slots are all connected is
refused nonetheless when the node has less lead nodes than the port has slots. A number of a result slot which
does not exist is accepted. And when the completion fails half-way, default connections remain, which are then
taken for explicit ones in another attempt. -/

namespace Lumiera.Steam.Engine

open List

universe u

open Lib.Parse (StrView)

variable {ι : Type u}

/-! ## What is required -/

/-- What was asked for a port. -/
structure PortPlan (ι : Type u) where
  portSpec : StrView
  prototype : Prototype
  /-- The explicit connections. -/
  connections : List (PortRef ι)
  defaultPort : ℕ
  resultSlot : ℕ
  deriving DecidableEq, Repr

/-- **A port wired as planned**, with the given lead nodes. -/
structure PortPlan.Wired (nodeSymbol : StrView) (plan : PortPlan ι) (leads : List ι) (port : BuiltPort ι) :
    Prop where
  identity : ProcID.describe nodeSymbol plan.portSpec = .ok port.procID ()
  slots : port.leadPort_.length = plan.prototype.FAN_I
  connected : ∀ i < plan.connections.length, port.leadPort_[i]? = plan.connections[i]?
  defaulted : ∀ i < plan.prototype.FAN_I, plan.connections.length ≤ i →
    ∃ lead, leads[i]? = some lead ∧ port.leadPort_[i]? = some ⟨lead, plan.defaultPort⟩
  result : port.resultSlot_ = plan.resultSlot ∧ plan.resultSlot < plan.prototype.FAN_O

/-- **Some slot can not be connected by default**: there is no lead node with this number, or this node has
no such port. -/
def PortPlan.Open (setup : BuildSetup ι) (plan : PortPlan ι) (leads : List ι) : Prop :=
  ∃ i < plan.prototype.FAN_I, plan.connections.length ≤ i ∧
    ∀ lead ∈ leads[i]?, setup.portCount lead ≤ plan.defaultPort

/-- The node which is meant by a lead. -/
def Lead.designated (leads : List ι) : Lead ι → Option ι
  | .idx nr => leads[nr]?
  | .node leadNode => some leadNode

/-- The node which is given by reference. -/
def Lead.reference : Lead ι → List ι
  | .idx _ => []
  | .node leadNode => [leadNode]

instance (setup : BuildSetup ι) (plan : PortPlan ι) (leads : List ι) : Decidable (plan.Open setup leads) :=
  inferInstanceAs (Decidable (∃ i < plan.prototype.FAN_I, plan.connections.length ≤ i ∧
    ∀ lead ∈ leads[i]?, setup.portCount lead ≤ plan.defaultPort))

/-- A builder in use, with a record of the successful calls: the leads added, the nodes given by reference,
the plan for the port currently defined, and the plans for the ports which are completed. -/
structure Session (ι : Type u) where
  builder : Builder ι
  added : List ι
  referred : List ι
  plan : PortPlan ι
  completed : List (PortPlan ι)

namespace Session

variable [DecidableEq ι] (setup : BuildSetup ι)

/-- `prepareNode`. -/
def prepareNode (nodeSymbol : StrView) : Session ι where
  builder := .node ⟨nodeSymbol, [], .anchor⟩
  added := []
  referred := []
  plan := ⟨[], ⟨0, 0, 0⟩, [], 0, 0⟩
  completed := []

/-- Record an explicit connection. -/
def connect (lead : Lead ι) (port : ℕ) (s : Session ι) : Session ι :=
  let connection := (lead.designated s.builder.leads).map (⟨·, port⟩)
  { s with plan.connections := s.plan.connections ++ connection.toList }

/-- Record a node given by reference, irrespective of whether it can be connected. -/
def refer (call : Call ι) (s : Session ι) : Session ι :=
  match call with
  | .connectLead lead => { s with referred := s.referred ++ lead.reference }
  | .connectLeadPort lead _ => { s with referred := s.referred ++ lead.reference }
  | _ => s

/-- **Record a successful call.** -/
def record (call : Call ι) (s : Session ι) : Session ι :=
  match call with
  | .addLead lead => { s with added := s.added ++ [lead] }
  | .preparePort portSpec prototype =>
    { s with plan := ⟨portSpec, prototype, [], s.completed.length, 0⟩ }
  | .asResultSlot r => { s with plan.resultSlot := r }
  | .connectLead lead => s.connect lead s.plan.defaultPort
  | .connectLeadPort lead port => s.connect lead port
  | .useLeadPort defaultPort => { s with plan.defaultPort := defaultPort }
  | .completePort => { s with completed := s.completed ++ [s.plan] }
  | .build => s

/-- **Perform a call** and record it. -/
def perform (call : Call ι) (s : Session ι) : Option (Session ι) :=
  match s.builder.perform setup call with
  | .ok _ builder => some { (s.record call).refer call with builder := builder }
  | .raised builder => some { s.refer call with builder := builder }
  | .halted => none

/-- The runs of a builder chain. -/
def machine (nodeSymbol : StrView) : Machine (Session ι) (Call ι) :=
  .ofFun (.prepareNode nodeSymbol) fun s call => s.perform setup call

/-- **The lead nodes are listed**: once for each time they were added, and at most once more for being given
by reference. -/
def Listed (added referred leads : List ι) : Prop :=
  ∀ node, ∃ extra ≤ 1, leads.count node = added.count node + extra ∧ (node ∉ referred → extra = 0)

/-- **The node is built as requested**, with the ports in the order of completion and wired as planned. -/
structure Built (nodeSymbol : StrView) (s : Session ι) : Prop where
  ports : List.Forall₂ (fun plan port => plan.Wired nodeSymbol s.builder.leads port) s.completed
    s.builder.ports
  leads : Listed s.added s.referred s.builder.leads

/-- **A port can be completed** exactly if no slot remains open; otherwise an exception is raised. The ID of
the port is presumed to be acceptable. -/
def Completes (nodeSymbol : StrView) (s : Session ι) : Prop :=
  ∀ b, s.builder = .port b → ∀ procID, ProcID.describe nodeSymbol s.plan.portSpec = .ok procID () →
    ((∃ builder, s.builder.perform setup .completePort = .raised builder) ↔
    s.plan.Open setup s.builder.leads) ∧
    ((∃ builder, s.builder.perform setup .completePort = .ok () builder) ↔
    ¬ s.plan.Open setup s.builder.leads)

/-- **The port is completed in a regular way.** All the connections present were requested explicitly, and not
left over from a failed attempt. When all slots are connected, there are as many lead nodes as slots. And
the result slot exists, unless the port can not be completed anyway. -/
structure Regular (s : Session ι) (b : PortBuilder ι) : Prop where
  untouched : b.weavingBuilder_.leadPorts = s.plan.connections
  enough : s.plan.connections.length = s.plan.prototype.FAN_I → s.plan.prototype.FAN_I ≤ b.leads_.length
  result : s.plan.Open setup b.leads_ ∨ s.plan.resultSlot < s.plan.prototype.FAN_O

instance (s : Session ι) (b : PortBuilder ι) : Decidable (s.Regular setup b) :=
  decidable_of_iff
    (b.weavingBuilder_.leadPorts = s.plan.connections ∧
      (s.plan.connections.length = s.plan.prototype.FAN_I → s.plan.prototype.FAN_I ≤ b.leads_.length) ∧
      (s.plan.Open setup b.leads_ ∨ s.plan.resultSlot < s.plan.prototype.FAN_O))
    ⟨fun ⟨h₁, h₂, h₃⟩ => ⟨h₁, h₂, h₃⟩, fun ⟨h₁, h₂, h₃⟩ => ⟨h₁, h₂, h₃⟩⟩

/-- The condition on the calls: ports are completed in a regular way. -/
def Permitted (s : Session ι) (call : Call ι) : Prop :=
  call = .completePort → ∀ b, s.builder = .port b → s.Regular setup b

instance (s : Session ι) (call : Call ι) : Decidable (s.Permitted setup call) :=
  match hb : s.builder with
  | .port b => decidable_of_iff (call = .completePort → s.Regular setup b)
      ⟨fun h hcall b' hb' => Builder.port.inj (hb.symm.trans hb') ▸ h hcall, fun h hcall => h hcall b hb⟩
  | .node _ => isTrue fun _ _ h => by rw [hb] at h; cases h
  | .finished _ => isTrue fun _ _ h => by rw [hb] at h; cases h

end Session

/-! ## Connecting the slots -/

namespace WeavingBuilder

variable {setup : BuildSetup ι}

theorem attachToLeadPort_sat (w : WeavingBuilder ι) (lead : ι) (portNr : ℕ) :
    (w.attachToLeadPort setup lead portNr).Sat
      (fun _ w' => w' = { w with leadPorts := w.leadPorts ++ [⟨lead, portNr⟩] } ∧
        w.leadPorts.length < w.prototype_.FAN_I ∧ portNr < setup.portCount lead)
      (fun w' => w' = w ∧ (w.prototype_.FAN_I ≤ w.leadPorts.length ∨ setup.portCount lead ≤ portNr ∨
        setup.capacity ≤ w.leadPorts.length)) := by
  unfold attachToLeadPort BuildSetup.getPort BuildSetup.append
  by_cases hfull : w.prototype_.FAN_I ≤ w.leadPorts.length
  · rw [if_pos hfull]
    exact ⟨rfl, .inl hfull⟩
  rw [if_neg hfull]
  by_cases hport : setup.portCount lead ≤ portNr
  · rw [if_pos hport]
    exact ⟨rfl, .inr (.inl hport)⟩
  rw [if_neg hport]
  by_cases hcap : w.leadPorts.length < setup.capacity
  · simp only [if_pos hcap]
    exact ⟨rfl, not_le.mp hfull, not_le.mp hport⟩
  · simp only [if_neg hcap]
    exact ⟨rfl, .inr (.inr (not_lt.mp hcap))⟩

/-- The lead nodes for the slots to be connected by default. -/
def defaultLeads (knownLeads : List ι) (w : WeavingBuilder ι) : List ι :=
  (knownLeads.take w.prototype_.FAN_I).drop w.leadPorts.length

/-- The builder with further connections. -/
def extended (w : WeavingBuilder ι) (more : List (PortRef ι)) : WeavingBuilder ι :=
  { w with leadPorts := w.leadPorts ++ more }

variable {w : WeavingBuilder ι} {knownLeads : List ι}

/-- The slots are connected by default one after the other, as long as the lead node has the port. -/
theorem attachRemaining_sat {defaultPort cnt : ℕ}
    (hcnt : w.leadPorts.length + cnt = w.prototype_.FAN_I) (hleads : w.prototype_.FAN_I ≤ knownLeads.length)
    (hcap : knownLeads.length ≤ setup.capacity) :
    (w.attachRemaining setup knownLeads defaultPort cnt).Sat
      (fun _ w' => w' = w.extended ((w.defaultLeads knownLeads).map (⟨·, defaultPort⟩)) ∧
        ∀ lead ∈ w.defaultLeads knownLeads, defaultPort < setup.portCount lead)
      (fun w' => (∃ more, w' = w.extended more) ∧ w'.leadPorts.length ≤ w.prototype_.FAN_I ∧
        ∃ lead ∈ w.defaultLeads knownLeads, setup.portCount lead ≤ defaultPort) := by
  induction cnt generalizing w with
  | zero =>
    have hnone : w.defaultLeads knownLeads = [] := by
      rw [defaultLeads, drop_eq_nil_iff, length_take]
      omega
    rw [hnone]
    exact ⟨by simp [extended], fun lead hmem => by cases hmem⟩
  | succ cnt ih =>
    have hlt : w.leadPorts.length < knownLeads.length := by omega
    have hsplit : w.defaultLeads knownLeads = knownLeads[w.leadPorts.length] ::
        (w.extended [⟨knownLeads[w.leadPorts.length], defaultPort⟩]).defaultLeads knownLeads := by
      have hlen : w.leadPorts.length < (knownLeads.take w.prototype_.FAN_I).length := by
        rw [length_take]; omega
      rw [defaultLeads, drop_eq_getElem_cons hlen]
      simp [defaultLeads, extended]
    rw [attachRemaining, getElem?_eq_getElem hlt]
    refine (attachToLeadPort_sat w _ defaultPort).bind ?_ ?_
    -- this one is refused
    · rintro w' ⟨hsame, hwhy⟩
      refine ⟨⟨[], by simp [hsame, extended]⟩, by rw [hsame]; omega,
        knownLeads[w.leadPorts.length], ?_, ?_⟩
      · exact hsplit ▸ mem_cons_self
      · rcases hwhy with hfull | hport | hsize
        · omega
        · exact hport
        · omega
    -- this one is connected
    · rintro - w' ⟨rfl, -, hport⟩
      have hnext := ih (w := w.extended [⟨knownLeads[w.leadPorts.length], defaultPort⟩])
        (by simp [extended]; omega) hleads
      refine hnext.mono ?_ ?_
      · rintro - w'' ⟨rfl, hall⟩
        constructor
        · rw [hsplit]
          simp [extended]
        · rw [hsplit]
          exact forall_mem_cons.mpr ⟨hport, hall⟩
      · rintro w'' ⟨⟨more, rfl⟩, hlen, lead, hmem, hmissing⟩
        refine ⟨⟨⟨knownLeads[w.leadPorts.length], defaultPort⟩ :: more, by simp [extended]⟩, hlen, lead, ?_,
          hmissing⟩
        exact hsplit ▸ mem_cons_of_mem _ hmem

/-- Connecting the remaining slots. -/
theorem connectRemainingInputs_sat (defaultPort : ℕ)
    (hfit : w.leadPorts.length ≤ w.prototype_.FAN_I) (hcap : knownLeads.length ≤ setup.capacity) :
    (w.connectRemainingInputs setup knownLeads defaultPort).Sat
      (fun _ w' => w.prototype_.FAN_I ≤ knownLeads.length ∧
        w' = w.extended ((w.defaultLeads knownLeads).map (⟨·, defaultPort⟩)) ∧
        ∀ lead ∈ w.defaultLeads knownLeads, defaultPort < setup.portCount lead)
      (fun w' => (∃ more, w' = w.extended more) ∧ w'.leadPorts.length ≤ w.prototype_.FAN_I ∧
        (knownLeads.length < w.prototype_.FAN_I ∨
          ∃ lead ∈ w.defaultLeads knownLeads, setup.portCount lead ≤ defaultPort)) := by
  unfold connectRemainingInputs
  rw [if_neg (not_lt.mpr hfit)]
  by_cases hfew : knownLeads.length < w.prototype_.FAN_I
  · rw [if_pos hfew]
    exact ⟨⟨[], by simp [extended]⟩, hfit, .inl hfew⟩
  · rw [if_neg hfew]
    have henough := not_lt.mp hfew
    refine (attachRemaining_sat (by omega) henough hcap).mono ?_ ?_
    · exact fun _ w' hdone => ⟨henough, hdone⟩
    · exact fun w' ⟨hmore, hlen, hwhy⟩ => ⟨hmore, hlen, .inr hwhy⟩

theorem length_extended_default (defaultPort : ℕ) (hfit : w.leadPorts.length ≤ w.prototype_.FAN_I)
    (hleads : w.prototype_.FAN_I ≤ knownLeads.length) :
    (w.extended ((w.defaultLeads knownLeads).map (⟨·, defaultPort⟩))).leadPorts.length = w.prototype_.FAN_I := by
  simp only [extended, defaultLeads, length_append, length_map, length_drop, length_take]
  omega

theorem build_of_full (hfull : w.leadPorts.length = w.prototype_.FAN_I) :
    w.build = ((ProcID.describe w.nodeSymb_ w.portSpec_).within fun _ => { w with leadPorts := [] }).bind
      fun procID moved => .ok ⟨procID, w.leadPorts, w.resultSlot, w.prototype_⟩ moved :=
  if_neg fun hne => hne hfull

end WeavingBuilder

/-! ## Open slots -/

variable {port : BuiltPort ι}

namespace PortPlan

variable {setup : BuildSetup ι} {plan : PortPlan ι} {leads : List ι}

theorem open_of_few (hfew : leads.length < plan.prototype.FAN_I)
    (hconn : plan.connections.length < plan.prototype.FAN_I) : plan.Open setup leads := by
  refine ⟨plan.prototype.FAN_I - 1, by omega, by omega, fun lead hlead => ?_⟩
  have hlt := (List.getElem?_eq_some_iff.mp hlead).1
  omega

theorem open_iff_of_enough (henough : plan.prototype.FAN_I ≤ leads.length) :
    plan.Open setup leads ↔ ∃ lead ∈ (leads.take plan.prototype.FAN_I).drop plan.connections.length,
      setup.portCount lead ≤ plan.defaultPort := by
  constructor
  · rintro ⟨i, hi, hconn, hmissing⟩
    have hlt : i < leads.length := by omega
    refine ⟨leads[i], ?_, hmissing leads[i] (getElem?_eq_getElem hlt)⟩
    rw [mem_iff_getElem]
    refine ⟨i - plan.connections.length, by rw [length_drop, length_take]; omega, ?_⟩
    rw [getElem_drop, getElem_take]
    congr 1
    omega
  · rintro ⟨lead, hmem, hmissing⟩
    obtain ⟨k, hk, hget⟩ := mem_iff_getElem.mp hmem
    rw [length_drop, length_take] at hk
    refine ⟨plan.connections.length + k, by omega, by omega, fun lead' hlead' => ?_⟩
    have hsame : lead' = lead := by
      rw [getElem_drop, getElem_take] at hget
      rw [getElem?_eq_getElem (by omega), hget] at hlead'
      exact (Option.some.inj hlead').symm
    exact hsame ▸ hmissing

/-- **A port is wired as planned** when the further slots are connected in order to the lead nodes with
their numbers. -/
theorem wired_of_defaulted {nodeSymbol : StrView}
    (hid : ProcID.describe nodeSymbol plan.portSpec = .ok port.procID ())
    (hfit : plan.connections.length ≤ plan.prototype.FAN_I) (henough : plan.prototype.FAN_I ≤ leads.length)
    (hports : port.leadPort_ = plan.connections ++
      ((leads.take plan.prototype.FAN_I).drop plan.connections.length).map (⟨·, plan.defaultPort⟩))
    (hslot : port.resultSlot_ = plan.resultSlot) (hresult : plan.resultSlot < plan.prototype.FAN_O) :
    plan.Wired nodeSymbol leads port where
  identity := hid
  slots := by
    rw [hports]
    simp only [length_append, length_map, length_drop, length_take]
    omega
  connected i hi := by rw [hports, List.getElem?_append_left hi]
  defaulted i hi hconn := by
    have hlt : i < leads.length := by omega
    refine ⟨leads[i], getElem?_eq_getElem hlt, ?_⟩
    rw [hports, getElem?_append_right hconn, getElem?_map, getElem?_drop,
      Nat.add_sub_cancel' hconn, getElem?_take_of_lt hi, getElem?_eq_getElem hlt]
    rfl
  result := ⟨hslot, hresult⟩

theorem Wired.append {nodeSymbol : StrView} (h : plan.Wired nodeSymbol leads port)
    (more : List ι) : plan.Wired nodeSymbol (leads ++ more) port where
  identity := h.identity
  slots := h.slots
  connected := h.connected
  defaulted i hi hconn := by
    obtain ⟨lead, hlead, hport⟩ := h.defaulted i hi hconn
    exact ⟨lead, List.getElem?_append_left (List.getElem?_eq_some_iff.mp hlead).1 ▸ hlead, hport⟩
  result := h.result

end PortPlan

/-! ## Completing a port -/

namespace PortBuilder

variable {setup : BuildSetup ι} {nodeSymbol : StrView} {plan : PortPlan ι} {b : PortBuilder ι}

/-- **The builder follows the plan**, as far as it is not about the connections. -/
structure Follows (nodeSymbol : StrView) (plan : PortPlan ι) (b : PortBuilder ι) : Prop where
  symbol : b.symbol_ = nodeSymbol
  nodeSymb : b.weavingBuilder_.nodeSymb_ = nodeSymbol
  portSpec : b.weavingBuilder_.portSpec_ = plan.portSpec
  prototype : b.weavingBuilder_.prototype_ = plan.prototype
  defaultPort : b.defaultPort_ = plan.defaultPort
  resultSlot : b.weavingBuilder_.resultSlot = plan.resultSlot
  fit : b.weavingBuilder_.leadPorts.length ≤ plan.prototype.FAN_I

/-- The builder with other lead ports. -/
def rewired (b : PortBuilder ι) (leadPorts : List (PortRef ι)) : PortBuilder ι :=
  { b with weavingBuilder_ := { b.weavingBuilder_ with leadPorts := leadPorts } }

theorem Follows.rewired (h : b.Follows nodeSymbol plan) {leadPorts : List (PortRef ι)}
    (hfit : leadPorts.length ≤ plan.prototype.FAN_I) : (b.rewired leadPorts).Follows nodeSymbol plan :=
  { h with fit := hfit }

/-- The port which is to be created, with the given ID and with default connections in the remaining
slots. -/
def planned (b : PortBuilder ι) (procID : ProcID) : BuiltPort ι where
  procID := procID
  leadPort_ := b.weavingBuilder_.leadPorts ++
    (b.weavingBuilder_.defaultLeads b.leads_).map (⟨·, b.defaultPort_⟩)
  resultSlot_ := b.weavingBuilder_.resultSlot
  prototype_ := b.weavingBuilder_.prototype_

/-- The node builder with this port in a further layer. -/
def completed (b : PortBuilder ι) (procID : ProcID) : NodeBuilder ι :=
  { b.toNodeBuilder with patternData_ := .entry b.patternData_ (b.planned procID) }

/-- Completing a port: the slots are connected, then the port gets its ID. -/
theorem completePort_cases (h : b.Follows nodeSymbol plan) (hcap : b.leads_.length ≤ setup.capacity) :
    ((∃ leadPorts, b.completePort setup = .raised (b.rewired leadPorts) ∧
          leadPorts.length ≤ plan.prototype.FAN_I) ∧
        (b.leads_.length < plan.prototype.FAN_I ∨
          ∃ lead ∈ b.weavingBuilder_.defaultLeads b.leads_, setup.portCount lead ≤ plan.defaultPort)) ∨
    plan.prototype.FAN_I ≤ b.leads_.length ∧
      (∀ lead ∈ b.weavingBuilder_.defaultLeads b.leads_, plan.defaultPort < setup.portCount lead) ∧
      b.completePort setup = match ProcID.describe nodeSymbol plan.portSpec with
        | .ok procID _ => .ok (b.completed procID) (b.rewired [])
        | .raised _ => .raised (b.rewired [])
        | .halted => .halted := by
  have hfit : b.weavingBuilder_.leadPorts.length ≤ b.weavingBuilder_.prototype_.FAN_I := h.prototype ▸ h.fit
  have hsat := WeavingBuilder.connectRemainingInputs_sat b.defaultPort_ hfit hcap
  unfold completePort
  rw [← h.defaultPort]
  cases hconn : b.weavingBuilder_.connectRemainingInputs setup b.leads_ b.defaultPort_ with
  | halted =>
    rw [hconn] at hsat
    exact hsat.elim
  | raised w =>
    rw [hconn] at hsat
    obtain ⟨⟨more, rfl⟩, hlen, hwhy⟩ := hsat
    rw [h.prototype] at hlen hwhy
    exact .inl ⟨⟨b.weavingBuilder_.leadPorts ++ more, rfl, hlen⟩, hwhy⟩
  | ok u w =>
    rw [hconn] at hsat
    obtain ⟨henough, rfl, hall⟩ := hsat
    refine .inr ⟨h.prototype ▸ henough, hall, ?_⟩
    have hfull := WeavingBuilder.length_extended_default b.defaultPort_ hfit henough
    rw [Attempt.bind_ok, WeavingBuilder.build_of_full hfull, ← h.nodeSymb, ← h.portSpec]
    simp only [WeavingBuilder.extended]
    cases ProcID.describe b.weavingBuilder_.nodeSymb_ b.weavingBuilder_.portSpec_ with
    | ok procID u => rfl
    | raised u => rfl
    | halted => rfl

variable {s : Session ι}

theorem open_of_cause [DecidableEq ι] (hregular : s.Regular setup b)
    (hfollows : b.Follows nodeSymbol s.plan)
    (hwhy : b.leads_.length < s.plan.prototype.FAN_I ∨
      ∃ lead ∈ b.weavingBuilder_.defaultLeads b.leads_, setup.portCount lead ≤ s.plan.defaultPort) :
    s.plan.Open setup b.leads_ := by
  have hfit := hfollows.fit
  rw [hregular.untouched] at hfit
  by_cases hfew : b.leads_.length < s.plan.prototype.FAN_I
  · refine PortPlan.open_of_few hfew (lt_of_le_of_ne hfit fun hfull => ?_)
    exact absurd (hregular.enough hfull) (not_le.mpr hfew)
  · rw [PortPlan.open_iff_of_enough (not_lt.mp hfew)]
    have hmissing := hwhy.resolve_left hfew
    rwa [WeavingBuilder.defaultLeads, hfollows.prototype, hregular.untouched] at hmissing

theorem wired_planned [DecidableEq ι] (hregular : s.Regular setup b) (hfollows : b.Follows nodeSymbol s.plan)
    (henough : s.plan.prototype.FAN_I ≤ b.leads_.length) (hopen : ¬ s.plan.Open setup b.leads_)
    {procID : ProcID} (hid : ProcID.describe nodeSymbol s.plan.portSpec = .ok procID ()) :
    s.plan.Wired nodeSymbol b.leads_ (b.planned procID) := by
  have hfit := hfollows.fit
  rw [hregular.untouched] at hfit
  refine PortPlan.wired_of_defaulted hid hfit henough ?_ hfollows.resultSlot
    (hregular.result.resolve_left hopen)
  rw [planned, WeavingBuilder.defaultLeads, hfollows.prototype, hregular.untouched, hfollows.defaultPort]

/-- **A regular completion**: either some slot is open and an exception is raised, or no slot is open and the
port gets its ID. -/
theorem completePort_regular [DecidableEq ι] (hregular : s.Regular setup b)
    (hfollows : b.Follows nodeSymbol s.plan) (hcap : b.leads_.length ≤ setup.capacity) :
    (s.plan.Open setup b.leads_ ∧ ∃ leadPorts, b.completePort setup = .raised (b.rewired leadPorts) ∧
      leadPorts.length ≤ s.plan.prototype.FAN_I) ∨
    ¬ s.plan.Open setup b.leads_ ∧
      (∀ procID, ProcID.describe nodeSymbol s.plan.portSpec = .ok procID () →
        s.plan.Wired nodeSymbol b.leads_ (b.planned procID)) ∧
      b.completePort setup = match ProcID.describe nodeSymbol s.plan.portSpec with
        | .ok procID _ => .ok (b.completed procID) (b.rewired [])
        | .raised _ => .raised (b.rewired [])
        | .halted => .halted := by
  rcases completePort_cases hfollows hcap with ⟨hraised, hwhy⟩ | ⟨henough, hall, hdone⟩
  · exact .inl ⟨open_of_cause hregular hfollows hwhy, hraised⟩
  · have hopen : ¬ s.plan.Open setup b.leads_ := by
      rw [PortPlan.open_iff_of_enough henough]
      rintro ⟨lead, hmem, hmissing⟩
      rw [WeavingBuilder.defaultLeads, hfollows.prototype, hregular.untouched] at hall
      exact absurd (hall lead hmem) (not_lt.mpr hmissing)
    exact .inr ⟨hopen, fun procID hid => wired_planned hregular hfollows henough hopen hid, hdone⟩

/-! ## Connecting explicitly -/

theorem connectKnownLead_sat (b : PortBuilder ι) (idx port : ℕ) :
    (b.connectKnownLead setup idx port).Sat
      (fun _ b' => ∃ lead, b.leads_[idx]? = some lead ∧
        b' = b.rewired (b.weavingBuilder_.leadPorts ++ [⟨lead, port⟩]) ∧
        b.weavingBuilder_.leadPorts.length < b.weavingBuilder_.prototype_.FAN_I)
      (fun b' => b' = b) := by
  unfold connectKnownLead
  cases hlead : b.leads_[idx]? with
  | none => exact rfl
  | some lead =>
    rw [Attempt.sat_within]
    refine (WeavingBuilder.attachToLeadPort_sat b.weavingBuilder_ lead port).mono ?_ ?_
    · rintro - w ⟨rfl, hfit, -⟩
      exact ⟨lead, rfl, rfl, hfit⟩
    · rintro w ⟨rfl, -⟩
      rfl

/-- What a lead given to a connection does to the list of lead nodes: a node given by reference may be added
to the list. -/
def Refers (lead : Lead ι) (leads leads' : List ι) : Prop :=
  leads' = leads ∨ ∃ node, lead = .node node ∧ node ∉ leads ∧ leads' = leads ++ [node]

/-- Connecting a lead node, which is found in the list of leads thereafter. -/
theorem connectLeadPort_sat [DecidableEq ι] (b : PortBuilder ι) (lead : Lead ι) (port : ℕ)
    (hcap : b.leads_.length ≤ setup.capacity) :
    (b.connectLeadPort setup lead port).Sat
      (fun _ b' => ∃ leads node, Refers lead b.leads_ leads ∧ leads.length ≤ setup.capacity ∧
        lead.designated b.leads_ = some node ∧
        b' = ({ b with leads_ := leads } : PortBuilder ι).rewired
          (b.weavingBuilder_.leadPorts ++ [⟨node, port⟩]) ∧
        b.weavingBuilder_.leadPorts.length < b.weavingBuilder_.prototype_.FAN_I)
      (fun b' => ∃ leads, Refers lead b.leads_ leads ∧ leads.length ≤ setup.capacity ∧
        b' = { b with leads_ := leads }) := by
  unfold connectLeadPort
  cases lead with
  | idx nr =>
    refine (connectKnownLead_sat b nr port).mono ?_ ?_
    · rintro - b' ⟨node, hlead, hdone, hfit⟩
      exact ⟨b.leads_, node, .inl rfl, hcap, hlead, hdone, hfit⟩
    · rintro b' rfl
      exact ⟨b'.leads_, .inl rfl, hcap, rfl⟩
  | node leadNode =>
    by_cases hknown : leadNode ∈ b.leads_
    · -- the node is found
      have hlt := idxOf_lt_length_iff.mpr hknown
      simp only [if_neg hlt.ne, Attempt.bind_ok, if_pos hlt]
      refine (connectKnownLead_sat b _ port).mono ?_ ?_
      · rintro - b' ⟨node, hlead, hdone, hfit⟩
        have hsame : node = leadNode := by
          rw [getElem?_eq_getElem hlt, getElem_idxOf] at hlead
          exact (Option.some.inj hlead).symm
        exact ⟨b.leads_, leadNode, .inl rfl, hcap, rfl, hsame ▸ hdone, hfit⟩
      · rintro b' rfl
        exact ⟨b'.leads_, .inl rfl, hcap, rfl⟩
    · -- the node is added at the end of the list
      have hend := idxOf_eq_length hknown
      have hadded : Refers (.node leadNode) b.leads_ (b.leads_ ++ [leadNode]) :=
        .inr ⟨leadNode, rfl, hknown, rfl⟩
      simp only [hend, if_true, NodeBuilder.addLead, BuildSetup.append]
      by_cases hspace : b.leads_.length < setup.capacity
      · have hlen : (b.leads_ ++ [leadNode]).length ≤ setup.capacity := by
          rw [length_append]; exact hspace
        simp only [if_pos hspace, Attempt.within, Attempt.bind_ok]
        rw [if_pos (by simp)]
        refine (connectKnownLead_sat _ _ port).mono ?_ ?_
        · rintro - b' ⟨node, hlead, hdone, hfit⟩
          have hsame : node = leadNode := by
            simp only [getElem?_concat_length] at hlead
            exact (Option.some.inj hlead).symm
          exact ⟨_, leadNode, hadded, hlen, rfl, hsame ▸ hdone, hfit⟩
        · rintro b' rfl
          exact ⟨_, hadded, hlen, rfl⟩
      · simp only [if_neg hspace]
        exact ⟨b.leads_, .inl rfl, hcap, rfl⟩

end PortBuilder

/-! ## Collecting the ports -/

namespace PortData

variable {setup : BuildSetup ι}

theorem adjustStorage_sat (d : PortData ι) {cnt spread : ℕ} (hinit : d.buffSiz = 0) (hpos : 0 < cnt)
    (hspread : 0 < spread) :
    (d.adjustStorage setup cnt spread).Sat
      (fun _ d' => d'.elms = d.elms ∧ d'.spread = spread ∧ cnt * spread ≤ d'.buffSiz ∧ d'.buffSiz ≠ 0)
      (fun d' => d' = d) := by
  unfold adjustStorage
  have hdemand : 0 < cnt * spread := Nat.mul_pos hpos hspread
  rw [if_neg (by omega)]
  by_cases hlimit : d.newCnt setup cnt spread * spread < cnt * spread
  · rw [if_pos hlimit]
    exact rfl
  · rw [if_neg hlimit]
    have hroom := not_lt.mp hlimit
    exact ⟨rfl, rfl, hroom, (hdemand.trans_le hroom).ne'⟩

/-- A port finds its place in storage which was reserved. -/
theorem emplace_reserved {d : PortData ι} (hsize : port.prototype_.sizMark ≤ d.spread)
    (hroom : (d.elms.length + 1) * d.spread ≤ d.buffSiz) (hstorage : d.buffSiz ≠ 0) :
    d.emplace setup port = .ok () { d with elms := d.elms ++ [port] } := by
  unfold emplace adjustStorage
  simp only [max_eq_right hsize]
  rw [if_neg (fun h => absurd hsize (not_le.mpr h.2)), if_neg (fun h => ?_), if_neg hstorage, if_pos hroom]
  · rfl
  · rw [Nat.mul_comm] at hroom
    exact absurd hroom (not_le.mpr h.2.1)

end PortData

namespace PatternData

variable {setup : BuildSetup ι}

theorem length_ports (patternData : PatternData ι) : patternData.ports.length = patternData.size := by
  induction patternData with
  | anchor => rfl
  | entry par port ih => rw [ports, length_append, ih, size, length_singleton, Nat.add_comm]

/-- Collecting at least one further port behind the ones of the pattern data. -/
theorem collectEntries_sat (patternData : PatternData ι) {cntElm maxSiz : ℕ}
    (hcnt : 0 < patternData.size + cntElm) :
    (patternData.collectEntries setup cntElm maxSiz .initial).Sat
      (fun _ d => d.elms = patternData.ports ∧ maxSiz ≤ d.spread ∧ d.buffSiz ≠ 0 ∧
        (patternData.size + cntElm) * d.spread ≤ d.buffSiz)
      (fun d => d.elms = []) := by
  induction patternData generalizing cntElm maxSiz with
  | anchor =>
    have hmax : 0 < max maxSiz (PortData.initial : PortData ι).spread := by
      show 0 < max maxSiz 16
      omega
    refine (PortData.adjustStorage_sat .initial rfl (by simpa [size] using hcnt) hmax).mono ?_ ?_
    · rintro - d ⟨helms, hspread, hroom, hstorage⟩
      refine ⟨helms, hspread ▸ le_max_left _ _, hstorage, ?_⟩
      rwa [size, Nat.zero_add, hspread]
    · rintro d rfl
      rfl
  | entry par port ih =>
    refine (ih (by omega)).bind (fun _ hd => hd) ?_
    -- the storage was reserved at the end of the recursion
    rintro - d ⟨helms, hmax, hstorage, hroom⟩
    have hsize : port.prototype_.sizMark ≤ d.spread := (le_max_left _ _).trans hmax
    have hmore : (d.elms.length + 1) * d.spread ≤ d.buffSiz := by
      rw [helms, length_ports]
      refine le_trans (Nat.mul_le_mul_right _ ?_) hroom
      omega
    rw [PortData.emplace_reserved hsize hmore hstorage]
    refine ⟨by rw [helms]; rfl, (le_max_right _ _).trans hmax, hstorage, ?_⟩
    have hsum : (entry par port).size + cntElm = par.size + (cntElm + 1) := by rw [size]; omega
    rw [hsum]
    exact hroom

end PatternData

/-- **Building the node** yields the ports in the order of completion; an exception is only raised when the
storage can not be provided. -/
theorem NodeBuilder.build_sat (setup : BuildSetup ι) (b : NodeBuilder ι) :
    (b.build setup).Sat (fun con _ => con = ⟨b.patternData_.ports, b.leads_⟩) (fun b' => b' = b) := by
  unfold build
  rw [Attempt.sat_within]
  cases hports : b.patternData_ with
  | anchor => exact rfl
  | entry par port =>
    have hcnt : 0 < (PatternData.entry par port).size + 0 := by rw [PatternData.size]; omega
    refine (PatternData.collectEntries_sat _ hcnt).bind (fun _ _ => rfl) ?_
    rintro - d ⟨helms, -⟩
    rw [Attempt.sat_ok, helms]

end Lumiera.Steam.Engine
