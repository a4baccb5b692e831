import Lumiera.Steam.Engine.NodeBuilderWiring

/-! # Runs of a builder chain

Each call of a builder chain is done or raises an exception, and the chain can go on in both cases. What has
been recorded about the calls and what the builder holds are kept **consistent** by each call: this is the
invariant, and a completed port is wired as planned since its completion was a regular one. -/

namespace Lumiera.Steam.Engine

open List

universe u

open Lib.Parse (StrView)

variable {ι : Type u} {plan : PortPlan ι}

namespace Session

variable [DecidableEq ι] {setup : BuildSetup ι} {nodeSymbol : StrView} {s t : Session ι}

variable {added leads referred : List ι}

theorem Listed.addLead (h : Listed added referred leads) (lead : ι) :
    Listed (added ++ [lead]) referred (leads ++ [lead]) := by
  intro node
  obtain ⟨extra, hle, hcount, hnone⟩ := h node
  refine ⟨extra, hle, ?_, hnone⟩
  rw [count_append, count_append]
  omega

variable {lead : Lead ι}

theorem Listed.refers {leads' : List ι} (h : Listed added referred leads)
    (hrefers : PortBuilder.Refers lead leads leads') : Listed added (referred ++ lead.reference) leads' := by
  intro node
  obtain ⟨extra, hle, hcount, hnone⟩ := h node
  rcases hrefers with rfl | ⟨new, rfl, habsent, rfl⟩
  · refine ⟨extra, hle, hcount, fun hnot => hnone fun hmem => hnot ?_⟩
    exact mem_append_left _ hmem
  · by_cases hsame : new = node
    · subst hsame
      rw [count_eq_zero_of_not_mem habsent] at hcount
      refine ⟨1, le_rfl, ?_, fun hnot => absurd (mem_append_right _ (mem_singleton_self _)) hnot⟩
      rw [count_append, count_eq_zero_of_not_mem habsent, count_singleton_self]
      omega
    · refine ⟨extra, hle, ?_, fun hnot => hnone fun hmem => hnot (mem_append_left _ hmem)⟩
      rw [count_append, hcount, count_singleton, if_neg (by simpa using hsame)]
      rfl

/-- The builder agrees with the record. -/
def Agrees (nodeSymbol : StrView) (s : Session ι) : Prop :=
  match s.builder with
  | .node b => b.symbol_ = nodeSymbol
  | .port b => b.Follows nodeSymbol s.plan
  | .finished _ => True

/-- **The invariant of a builder chain.** -/
structure Consistent (setup : BuildSetup ι) (nodeSymbol : StrView) (s : Session ι) : Prop where
  built : s.Built nodeSymbol
  space : s.builder.leads.length ≤ setup.capacity
  agrees : s.Agrees nodeSymbol

theorem Built.grown (h : s.Built nodeSymbol) (more : List ι)
    (hleads : t.builder.leads = s.builder.leads ++ more)
    (hports : t.builder.ports = s.builder.ports) (hcompleted : t.completed = s.completed)
    (hlisted : Listed t.added t.referred t.builder.leads) : t.Built nodeSymbol where
  ports := by
    rw [hports, hcompleted, hleads]
    exact h.ports.imp fun plan port hwired => hwired.append more
  leads := hlisted

theorem Built.same (h : s.Built nodeSymbol) (hleads : t.builder.leads = s.builder.leads)
    (hports : t.builder.ports = s.builder.ports) (hcompleted : t.completed = s.completed)
    (hadded : t.added = s.added) (hreferred : t.referred = s.referred) : t.Built nodeSymbol := by
  refine h.grown [] (hleads.trans (append_nil _).symm) hports hcompleted ?_
  rw [hadded, hreferred, hleads]
  exact h.leads

theorem length_completed (h : s.Built nodeSymbol) : s.completed.length = s.builder.ports.length :=
  h.ports.length_eq

variable {call : Call ι}

theorem perform_cases (hstep : s.perform setup call = some t) :
    (∃ builder, s.builder.perform setup call = .ok () builder ∧
      t = { (s.record call).refer call with builder := builder }) ∨
    ∃ builder, s.builder.perform setup call = .raised builder ∧
      t = { s.refer call with builder := builder } := by
  unfold perform at hstep
  cases hcall : s.builder.perform setup call with
  | ok u builder =>
    rw [hcall] at hstep
    exact .inl ⟨builder, rfl, (Option.some.inj hstep).symm⟩
  | raised builder =>
    rw [hcall] at hstep
    exact .inr ⟨builder, rfl, (Option.some.inj hstep).symm⟩
  | halted =>
    rw [hcall] at hstep
    cases hstep

theorem Consistent.of_sat
    (hsat : (s.builder.perform setup call).Sat
      (fun _ builder => Consistent setup nodeSymbol { (s.record call).refer call with builder := builder })
      (fun builder => Consistent setup nodeSymbol { s.refer call with builder := builder }))
    (hstep : s.perform setup call = some t) : t.Consistent setup nodeSymbol := by
  rcases perform_cases hstep with ⟨builder, hcall, rfl⟩ | ⟨builder, hcall, rfl⟩
  · rw [hcall] at hsat
    exact hsat
  · rw [hcall] at hsat
    exact hsat

theorem Consistent.refused (h : s.Consistent setup nodeSymbol) {builder : Builder ι}
    (hb : s.builder = builder) :
    Consistent setup nodeSymbol { s with builder := builder } := by
  subst hb
  exact h

/-! ### Calls at the level of the node -/

variable {n : NodeBuilder ι}

theorem Consistent.addLead (h : s.Consistent setup nodeSymbol) (hb : s.builder = .node n) {lead : ι}
    (hstep : s.perform setup (.addLead lead) = some t) : t.Consistent setup nodeSymbol := by
  refine .of_sat ?_ hstep
  have hagrees := h.agrees
  have hlisted := h.built.leads.addLead lead
  unfold Agrees at hagrees
  rw [hb] at hagrees hlisted ⊢
  rw [Builder.perform, NodeBuilder.addLead, BuildSetup.append]
  by_cases hroom : n.leads_.length < setup.capacity
  · rw [if_pos hroom]
    refine ⟨h.built.grown [lead] (by rw [hb]; rfl) (by rw [hb]; rfl) rfl hlisted, ?_, hagrees⟩
    show (n.leads_ ++ [lead]).length ≤ setup.capacity
    rw [length_append]
    exact hroom
  · rw [if_neg hroom]
    exact h.refused hb

theorem Consistent.preparePort (h : s.Consistent setup nodeSymbol) (hb : s.builder = .node n)
    {portSpec : StrView} {prototype : Prototype}
    (hstep : s.perform setup (.preparePort portSpec prototype) = some t) : t.Consistent setup nodeSymbol := by
  refine .of_sat ?_ hstep
  have hspace := h.space
  have hagrees := h.agrees
  have hlen := length_completed h.built
  unfold Agrees at hagrees
  rw [hb] at hspace hagrees hlen ⊢
  refine ⟨h.built.same (by rw [hb]; rfl) (by rw [hb]; rfl) rfl rfl rfl, hspace, ?_⟩
  exact
    { symbol := hagrees
      nodeSymb := hagrees
      portSpec := rfl
      prototype := rfl
      -- the number of the port is the number of ports completed
      defaultPort := (hlen.trans n.patternData_.length_ports).symm
      resultSlot := rfl
      fit := Nat.zero_le _ }

theorem Consistent.build (h : s.Consistent setup nodeSymbol) (hb : s.builder = .node n)
    (hstep : s.perform setup .build = some t) : t.Consistent setup nodeSymbol := by
  refine .of_sat ?_ hstep
  have hspace := h.space
  have hsat := n.build_sat setup
  rw [hb] at hspace ⊢
  rw [Builder.perform]
  cases hbuild : n.build setup with
  | ok con n' =>
    rw [hbuild] at hsat
    obtain rfl := hsat
    exact ⟨h.built.same (by rw [hb]; rfl) (by rw [hb]; rfl) rfl rfl rfl, hspace, trivial⟩
  | raised n' =>
    rw [hbuild] at hsat
    obtain rfl := hsat
    exact h.refused hb
  | halted =>
    rw [hbuild] at hsat
    exact hsat.elim

/-! ### Calls at the level of the port -/

variable {b : PortBuilder ι}

section Consistent

variable (h : s.Consistent setup nodeSymbol)

include h

section Hb

variable (hb : s.builder = .port b)

include hb

theorem Consistent.adjusted
    {b' : PortBuilder ι} (hnode : b'.toNodeBuilder = b.toNodeBuilder)
    (hfollows : b'.Follows nodeSymbol plan) :
    Consistent setup nodeSymbol { s with plan := plan, builder := .port b' } := by
  have hspace := h.space
  rw [hb] at hspace
  have hleads : b'.leads_ = b.leads_ := congrArg NodeBuilder.leads_ hnode
  have hports : b'.patternData_ = b.patternData_ := congrArg NodeBuilder.patternData_ hnode
  refine ⟨h.built.same ?_ ?_ rfl rfl rfl, ?_, hfollows⟩
  · rw [hb]
    exact hleads
  · rw [hb]
    exact congrArg PatternData.ports hports
  · show b'.leads_.length ≤ setup.capacity
    rw [hleads]
    exact hspace

theorem Consistent.follows :
    b.Follows nodeSymbol s.plan := by
  have hagrees := h.agrees
  unfold Agrees at hagrees
  rw [hb] at hagrees
  exact hagrees

theorem Consistent.asResultSlot {r : ℕ}
    (hstep : s.perform setup (.asResultSlot r) = some t) : t.Consistent setup nodeSymbol := by
  refine .of_sat ?_ hstep
  rw [hb]
  exact h.adjusted hb rfl { h.follows hb with resultSlot := rfl }

theorem Consistent.useLeadPort {nr : ℕ}
    (hstep : s.perform setup (.useLeadPort nr) = some t) : t.Consistent setup nodeSymbol := by
  refine .of_sat ?_ hstep
  rw [hb]
  exact h.adjusted hb rfl { h.follows hb with defaultPort := rfl }

theorem Consistent.referring
    (hrefers : PortBuilder.Refers lead b.leads_ leads)
    (hspace : leads.length ≤ setup.capacity)
    {b' : PortBuilder ι}
    (hnode : b'.toNodeBuilder = { b.toNodeBuilder with leads_ := leads })
    (hfollows : b'.Follows nodeSymbol plan) :
    Consistent setup nodeSymbol
      { s with plan := plan, referred := s.referred ++ lead.reference, builder := .port b' } := by
  have hleads : b'.leads_ = leads := by rw [hnode]
  have hports : b'.patternData_ = b.patternData_ := by rw [hnode]
  obtain ⟨more, hmore⟩ : ∃ more, leads = b.leads_ ++ more := by
    rcases hrefers with hsame | ⟨node, -, -, hnew⟩
    · exact ⟨[], hsame.trans (append_nil _).symm⟩
    · exact ⟨[node], hnew⟩
  have hlisted := h.built.leads
  rw [hb] at hlisted
  refine ⟨h.built.grown more ?_ ?_ rfl ?_, ?_, hfollows⟩
  · rw [hb]
    exact hleads.trans hmore
  · rw [hb]
    exact congrArg PatternData.ports hports
  · show Listed s.added (s.referred ++ lead.reference) b'.leads_
    rw [hleads]
    exact hlisted.refers hrefers
  · show b'.leads_.length ≤ setup.capacity
    rw [hleads]
    exact hspace

/-- A lead is connected, and the connection is the one which is recorded. -/
theorem Consistent.connected (lead : Lead ι)
    (nr : ℕ) :
    (b.connectLeadPort setup lead nr).Sat
      (fun _ b' => Consistent setup nodeSymbol
        { s.connect lead nr with referred := s.referred ++ lead.reference, builder := .port b' })
      (fun b' => Consistent setup nodeSymbol
        { s with referred := s.referred ++ lead.reference, builder := .port b' }) := by
  have hspace := h.space
  have hfollows := h.follows hb
  rw [hb] at hspace
  refine (b.connectLeadPort_sat lead nr hspace).mono ?_ ?_
  · rintro - b' ⟨leads, node, hrefers, hspace', hlead, rfl, hfit⟩
    refine h.referring hb hrefers hspace' rfl ?_
    exact
      { hfollows with
        fit := by
          show (b.weavingBuilder_.leadPorts ++ [(⟨node, nr⟩ : PortRef ι)]).length ≤ _
          rw [length_append]
          exact hfollows.prototype ▸ hfit }
  · rintro b' ⟨leads, hrefers, hspace', rfl⟩
    exact h.referring hb hrefers hspace' rfl { hfollows with }

theorem Consistent.connectLeadPort {nr : ℕ}
    (hstep : s.perform setup (.connectLeadPort lead nr) = some t) : t.Consistent setup nodeSymbol := by
  refine .of_sat ?_ hstep
  rw [hb, Builder.perform, Attempt.sat_within]
  exact h.connected hb lead nr

theorem Consistent.connectLead
    (hstep : s.perform setup (.connectLead lead) = some t) : t.Consistent setup nodeSymbol := by
  refine .of_sat ?_ hstep
  rw [hb, Builder.perform, Attempt.sat_within, PortBuilder.connectLead, (h.follows hb).defaultPort]
  exact h.connected hb lead s.plan.defaultPort

/-- A port is completed in a regular way: the new port is wired as planned. -/
theorem Consistent.completePort
    (hregular : s.Regular setup b) (hstep : s.perform setup .completePort = some t) :
    t.Consistent setup nodeSymbol := by
  have hspace := h.space
  have hfollows := h.follows hb
  have hports := h.built.ports
  rw [hb] at hspace hports
  -- when the ID is not acceptable, then the lead ports are lost
  have hlost : Consistent setup nodeSymbol { s with builder := .port (b.rewired []) } :=
    h.adjusted hb rfl (hfollows.rewired (Nat.zero_le _))
  rcases perform_cases hstep with ⟨builder, hcall, rfl⟩ | ⟨builder, hcall, rfl⟩
  all_goals
    rw [hb, Builder.perform] at hcall
    rcases PortBuilder.completePort_regular hregular hfollows hspace with
      ⟨-, leadPorts, hraised, hfit⟩ | ⟨-, hwired, hdone⟩
  · rw [hraised] at hcall
    cases hcall
  · rw [hdone] at hcall
    cases hid : ProcID.describe nodeSymbol s.plan.portSpec with
    | ok procID u =>
      rw [hid] at hcall
      cases hcall
      refine ⟨⟨?_, ?_⟩, hspace, hfollows.symbol⟩
      · exact rel_append hports (.cons (hwired procID hid) .nil)
      · have hlisted := h.built.leads
        rw [hb] at hlisted
        exact hlisted
    | raised u =>
      rw [hid] at hcall
      cases hcall
    | halted =>
      rw [hid] at hcall
      cases hcall
  · rw [hraised] at hcall
    cases hcall
    exact h.adjusted hb rfl (hfollows.rewired hfit)
  · rw [hdone] at hcall
    cases hid : ProcID.describe nodeSymbol s.plan.portSpec with
    | ok procID u =>
      rw [hid] at hcall
      cases hcall
    | raised u =>
      rw [hid] at hcall
      cases hcall
      exact hlost
    | halted =>
      rw [hid] at hcall
      cases hcall

end Hb

end Consistent

/-! ### All the calls -/

/-- Each call keeps the session consistent. -/
theorem Consistent.step (h : s.Consistent setup nodeSymbol) (hpermitted : s.Permitted setup call)
    (hstep : s.perform setup call = some t) : t.Consistent setup nodeSymbol := by
  -- a call which is not available at this level
  have hnone : ¬ s.builder.perform setup call = .halted := by
    intro hhalted
    unfold perform at hstep
    rw [hhalted] at hstep
    cases hstep
  cases hb : s.builder with
  | node n =>
    cases call with
    | addLead lead => exact h.addLead hb hstep
    | preparePort portSpec prototype => exact h.preparePort hb hstep
    | build => exact h.build hb hstep
    | _ => exact absurd (by rw [hb]; rfl) hnone
  | port b =>
    cases call with
    | asResultSlot r => exact h.asResultSlot hb hstep
    | connectLead lead => exact h.connectLead hb hstep
    | connectLeadPort lead nr => exact h.connectLeadPort hb hstep
    | useLeadPort nr => exact h.useLeadPort hb hstep
    | completePort => exact h.completePort hb (hpermitted rfl b hb) hstep
    | _ => exact absurd (by rw [hb]; rfl) hnone
  | finished con =>
    refine absurd ?_ hnone
    rw [hb]
    cases call <;> rfl

theorem consistent_prepareNode : Consistent setup nodeSymbol (prepareNode nodeSymbol : Session ι) where
  built := ⟨.nil, fun _ => ⟨0, Nat.zero_le 1, rfl, fun _ => rfl⟩⟩
  space := Nat.zero_le _
  agrees := rfl

/-- Every run with ports completed in a regular way keeps the session consistent. -/
theorem consistent_of_reachable (hreach : ((machine setup nodeSymbol).restrict (Permitted setup)).Reachable s) :
    s.Consistent setup nodeSymbol := by
  have hinv : ((machine setup nodeSymbol).restrict (Permitted setup)).Invariant
      (Consistent setup nodeSymbol) := by
    constructor
    case init =>
      rintro s rfl
      exact consistent_prepareNode
    case step =>
      rintro s call t h ⟨hpermitted, hstep⟩
      exact h.step hpermitted hstep
  exact hinv.reachable hreach

theorem Consistent.completes (h : s.Consistent setup nodeSymbol) (hpermitted : s.Permitted setup .completePort) :
    s.Completes setup nodeSymbol := by
  intro b hb procID hid
  have hspace := h.space
  rw [hb] at hspace ⊢
  rw [Builder.perform]
  rcases PortBuilder.completePort_regular (hpermitted rfl b hb) (h.follows hb) hspace with
    ⟨hopen, leadPorts, hraised, -⟩ | ⟨hclosed, -, hdone⟩
  · rw [hraised]
    constructor
    · exact ⟨fun _ => hopen, fun _ => ⟨_, rfl⟩⟩
    · constructor
      · rintro ⟨builder, hok⟩
        cases hok
      · exact fun hclosed => absurd hopen hclosed
  · rw [hdone, hid]
    constructor
    · constructor
      · rintro ⟨builder, hraised⟩
        cases hraised
      · exact fun hopen => absurd hopen hclosed
    · exact ⟨fun _ => hclosed, fun _ => ⟨_, rfl⟩⟩

/-- **Nodes are built as requested**, in every run where ports are completed in a regular way; and when a port
can be completed in a regular way, then it is completed exactly if no slot remains open. -/
theorem built_of_reachable (s : Session ι)
    (hreach : ((machine setup nodeSymbol).restrict (Permitted setup)).Reachable s) :
    s.Built nodeSymbol ∧ (s.Permitted setup .completePort → s.Completes setup nodeSymbol) := by
  have h := consistent_of_reachable hreach
  exact ⟨h.built, h.completes⟩

end Session

/-! ## An example -/

/-- Two nodes: the first one has two ports, the second one has a single port. The storage is on the heap. -/
def twoNodes : BuildSetup (Fin 2) where
  portCount node := 2 - node
  capacity := 992
  storageLimit spread := 1000 * spread - 64
  canExpand _ := false

/-- A mixing function with two inputs and one output. -/
def mixer : Prototype := ⟨2, 1, 200⟩

/-- The symbol of a node, and the specification of a port. -/
def mixSymbol : StrView := ['m', 'i', 'x']

def mixSpec : StrView := ['a', '(', 'f', ')']

namespace Session

theorem neZero_nodes : NeZero 2 := ⟨by decide⟩

attribute [local instance] neZero_nodes in
/-- A node with two ports; the second lead node is connected to the first slot of the first port. -/
def mixCalls : List (Call (Fin 2)) :=
  [.addLead 0, .preparePort mixSpec mixer, .connectLead (.node 1), .completePort,
    .preparePort mixSpec mixer, .useLeadPort 0, .completePort, .build]

theorem built_of_reachable_mix : ∃ s : Session (Fin 2), s.builder.ports.length = 2 ∧ s.builder.leads = [0, 1] ∧
    s.Built mixSymbol ∧ (s.Permitted twoNodes .completePort → s.Completes twoNodes mixSymbol) := by
  obtain ⟨s, hreach, hs⟩ := Machine.exists_restrict_reachable_of_exec (Permitted twoNodes)
    (fun (s : Session (Fin 2)) call => s.perform twoNodes call) (.prepareNode mixSymbol) mixCalls
    (fun s => s.builder.ports.length = 2 ∧ s.builder.leads = [0, 1]) (by decide)
  have hs := of_decide_eq_true hs
  exact ⟨s, hs.1, hs.2, built_of_reachable s hreach⟩

theorem Built.wired_single [DecidableEq ι] {nodeSymbol : StrView} {s : Session ι}
    (h : s.Built nodeSymbol)
    (hcompleted : s.completed = [plan]) :
    ∃ port, s.builder.ports = [port] ∧ plan.Wired nodeSymbol s.builder.leads port := by
  have hports := h.ports
  rw [hcompleted] at hports
  obtain ⟨port, rest, hwired, hrest, hall⟩ := List.forall₂_cons_left_iff.mp hports
  rw [List.forall₂_nil_left_iff.mp hrest] at hall
  exact ⟨port, hall, hwired⟩

attribute [local instance] neZero_nodes in
/-- Both slots are connected to the same lead node, which is the only one. -/
def doubledCalls : List (Call (Fin 2)) :=
  [.addLead 0, .preparePort mixSpec mixer, .connectLead (.idx 0), .connectLead (.idx 0)]

/-- The result slot is out of range. -/
def outsideCalls : List (Call (Fin 2)) :=
  [.preparePort mixSpec ⟨0, 1, 200⟩, .asResultSlot 1, .completePort]

attribute [local instance] neZero_nodes in
/-- A first attempt of completion fails since the second lead node does not have this port. -/
def repeatedCalls : List (Call (Fin 2)) :=
  [.addLead 0, .addLead 1, .preparePort mixSpec mixer, .useLeadPort 1, .completePort,
    .connectLeadPort (.idx 1) 0, .completePort]

/-- A port with all slots connected is refused, as there are less lead nodes than slots. -/
theorem not_completes_doubled : ∃ s, (machine twoNodes mixSymbol).Reachable s ∧ ¬ s.Completes twoNodes mixSymbol := by
  obtain ⟨s, hreach, hs⟩ := Machine.exists_reachable_of_exec
    (fun (s : Session (Fin 2)) call => s.perform twoNodes call) (.prepareNode mixSymbol) doubledCalls
    (fun s => s.plan.portSpec = mixSpec ∧ ¬ s.plan.Open twoNodes s.builder.leads ∧
      (s.builder.perform twoNodes .completePort).leaves fun _ => true) (by decide)
  obtain ⟨hspec, hclosed, hraised⟩ := of_decide_eq_true hs
  refine ⟨s, hreach, fun hcompletes => ?_⟩
  obtain ⟨builder, hraised, -⟩ := Attempt.exists_raised_of_leaves hraised
  cases hb : s.builder with
  | node n => rw [hb] at hraised; cases hraised
  | finished con => rw [hb] at hraised; cases hraised
  | port b =>
    have hid : ProcID.describe mixSymbol s.plan.portSpec =
        .ok ⟨mixSymbol, ['a'], ['(', 'f', ')'], ⟨true, false⟩⟩ () := by rw [hspec]; rfl
    exact hclosed ((hcompletes b hb _ hid).1.mp ⟨builder, hraised⟩)

/-- A result slot which does not exist is accepted. -/
theorem not_built_outside : ∃ s : Session (Fin 2), (machine twoNodes mixSymbol).Reachable s ∧
    ¬ s.Built mixSymbol := by
  obtain ⟨s, hreach, hs⟩ := Machine.exists_reachable_of_exec
    (fun (s : Session (Fin 2)) call => s.perform twoNodes call) (.prepareNode mixSymbol) outsideCalls
    (fun s => s.completed = [⟨mixSpec, ⟨0, 1, 200⟩, [], 0, 1⟩]) (by decide)
  refine ⟨s, hreach, fun hbuilt => ?_⟩
  obtain ⟨port, -, hwired⟩ := hbuilt.wired_single (of_decide_eq_true hs)
  exact absurd hwired.result.2 (by decide)

/-- After a failed attempt, the explicit connection ends up in another slot. -/
theorem not_built_repeated : ∃ s : Session (Fin 2), (machine twoNodes mixSymbol).Reachable s ∧ ¬ s.Built mixSymbol ∧
    ∀ plan ∈ s.completed, plan.resultSlot < plan.prototype.FAN_O := by
  obtain ⟨s, hreach, hs⟩ := Machine.exists_reachable_of_exec
    (fun (s : Session (Fin 2)) call => s.perform twoNodes call) (.prepareNode mixSymbol) repeatedCalls
    (fun s => s.completed = [⟨mixSpec, mixer, [⟨1, 0⟩], 1, 0⟩] ∧
      s.builder.ports.map (·.leadPort_) = [[⟨0, 1⟩, ⟨1, 0⟩]]) (by decide)
  obtain ⟨hcompleted, hports⟩ := of_decide_eq_true hs
  refine ⟨s, hreach, fun hbuilt => ?_, ?_⟩
  · obtain ⟨port, hport, hwired⟩ := hbuilt.wired_single hcompleted
    rw [hport, map_singleton, List.cons.injEq] at hports
    have hslot := hwired.connected 0 (by decide)
    rw [hports.1] at hslot
    exact absurd hslot (by decide)
  · rw [hcompleted]
    decide

/-- **What is required does not hold in all runs.** -/
theorem not_built_of_reachable :
    (∃ s, (machine twoNodes mixSymbol).Reachable s ∧ ¬ s.Completes twoNodes mixSymbol) ∧
    (∃ s : Session (Fin 2), (machine twoNodes mixSymbol).Reachable s ∧ ¬ s.Built mixSymbol) ∧
    ∃ s : Session (Fin 2), (machine twoNodes mixSymbol).Reachable s ∧ ¬ s.Built mixSymbol ∧
      ∀ plan ∈ s.completed, plan.resultSlot < plan.prototype.FAN_O :=
  ⟨not_completes_doubled, not_built_outside, not_built_repeated⟩

end Session

end Lumiera.Steam.Engine
