import Lumiera.Base.Attempt
import Lumiera.Base.Machine
import Lumiera.Lib.Parse

/-! # Building render nodes (`steam/engine/node-builder.hpp`, `weaving-pattern-builder.hpp`)

A render node is built by a chain of calls. The node builder collects the *lead nodes* and the ports; a
nested port builder defines a single port, whose processing function has a number of input slots and of
output slots. Each input slot is to be connected to a port of a lead node: one after the other by
explicit calls, and what is left over is connected by default when the port is completed. A builder can
still be used after one of its calls raised an exception.

A port is not created before the node is built, since all ports are to be placed into the same storage:
what has to be created is recorded in nested pattern data, from which the entries are collected.

Lead nodes have an identity and a number of ports. The buffer types and the parameters of the processing
function are not modelled. -/

namespace Lumiera.Steam.Engine

universe u

open Lib.Parse (StrView)

/-! ## The things to connect -/

/-- A reference to a port of a node. -/
structure PortRef (ι : Type u) where
  node : ι
  port : ℕ
  deriving DecidableEq, Repr

/-- What the builders are used with: the nodes which exist already, and the allocation policy. -/
structure BuildSetup (ι : Type u) where
  /-- The number of ports of a node. -/
  portCount : ι → ℕ
  /-- The number of references which the storage of a data builder can be expanded to hold. -/
  capacity : ℕ
  /-- The size of the storage which a data builder with this spread can be expanded to. -/
  storageLimit : ℕ → ℕ
  /-- Whether the allocator is able to extend the current allocation to this size. -/
  canExpand : ℕ → Bool

/-- `ProcNode::getPort`. -/
def BuildSetup.getPort {ι : Type u} (setup : BuildSetup ι) (node : ι) (portIdx : ℕ) : Option (PortRef ι) :=
  if setup.portCount node ≤ portIdx then none else some ⟨node, portIdx⟩

/-- Append to a data builder for references, whose storage is subject to a safety limit. -/
def BuildSetup.append {ι : Type u} {α : Type*} (setup : BuildSetup ι) (val : α) (data : List α) :
    Attempt (List α) Unit :=
  if data.length < setup.capacity then .ok () (data ++ [val]) else .raised data

/-- Extended attributes of a processing ID. -/
structure ProcAttrib where
  manifold : Bool
  isProxy : Bool
  deriving DecidableEq, Repr

/-- Metadata to qualify a port. -/
structure ProcID where
  nodeName_ : StrView
  portQual_ : StrView
  argLists_ : StrView
  attrib_ : ProcAttrib
  deriving DecidableEq, Repr

/-- **Build a processing ID**; the specification of the port must contain an argument list. -/
def ProcID.describe (nodeSymb portSpec : StrView) : Attempt Unit ProcID :=
  if nodeSymb = [] ∨ portSpec = [] ∨ ' ' ∈ nodeSymb then .halted
  else if '(' ∉ portSpec then .raised ()
  else .ok
    { nodeName_ := nodeSymb
      portQual_ := portSpec.takeWhile (· != '(')
      argLists_ := portSpec.dropWhile (· != '(')
      attrib_ := ⟨true, false⟩ } ()

/-- The prototype for the invocation of a processing function. -/
structure Prototype where
  FAN_I : ℕ
  FAN_O : ℕ
  /-- The storage for a port with this function (`sizeof(TurnoutWeaving)`). -/
  sizMark : ℕ
  deriving DecidableEq, Repr

/-- What is built for a port: a `Turnout` with a media weaving pattern. -/
structure BuiltPort (ι : Type u) where
  procID : ProcID
  leadPort_ : List (PortRef ι)
  resultSlot_ : ℕ
  prototype_ : Prototype
  deriving DecidableEq, Repr

/-! ## Pattern data -/

/-- A data builder for ports, which can not be moved. There is no storage as long as `buffSiz` is zero. -/
structure PortData (ι : Type u) where
  elms : List (BuiltPort ι)
  spread : ℕ
  buffSiz : ℕ

namespace PortData

variable {ι : Type u} (setup : BuildSetup ι)

/-- A data builder without storage; the spread is `sizeof(Port)`. -/
def initial : PortData ι := ⟨[], 16, 0⟩

/-- The number of elements to allocate when the storage has to grow. -/
def newCnt (cnt spread : ℕ) (d : PortData ι) : ℕ :=
  -- retain reserve
  let cnt := if d.spread < spread then max cnt (d.buffSiz / d.spread) else cnt
  let expandAlloc := min (setup.storageLimit d.spread) (max (2 * d.buffSiz) (cnt * spread))
  expandAlloc / spread

/-- Grow the storage when necessary. -/
def adjustStorage (cnt spread : ℕ) (d : PortData ι) : Attempt (PortData ι) Unit :=
  let demand := cnt * spread
  if demand ≤ d.buffSiz then .ok () d
  else if d.newCnt setup cnt spread * spread < demand then .raised d
  else .ok () { d with spread := spread, buffSiz := d.newCnt setup cnt spread * spread }

/-- Ensure up-front that a desired capacity is allocated, prior to adding elements. -/
def reserve (cntElm elmSiz : ℕ) (d : PortData ι) : Attempt (PortData ι) Unit :=
  d.adjustStorage setup cntElm (max elmSiz d.spread)

/-- **Create a port within the storage.** Since ports can not be moved, the spread and the storage must be
sufficient unless this is the first allocation. -/
def emplace (port : BuiltPort ι) (d : PortData ι) : Attempt (PortData ι) Unit :=
  let elmSiz := port.prototype_.sizMark
  let required := max elmSiz d.spread * (d.elms.length + 1)
  if d.buffSiz ≠ 0 ∧ d.spread < elmSiz then .raised d
  else if d.buffSiz ≠ 0 ∧ d.buffSiz < required ∧ ¬ setup.canExpand
    (elmSiz * (d.elms.length + 1)) then .raised d
  else
    let cnt := if d.buffSiz = 0 then 10 else d.elms.length + 1
    (d.adjustStorage setup cnt (max elmSiz d.spread)).bind fun _ d =>
      .ok () { d with elms := d.elms ++ [port] }

end PortData

/-- **The ports defined thus far**: the pattern data is a recursive structure, with a functor to create the
port in each layer. -/
inductive PatternData (ι : Type u)
  | anchor
  | entry (par : PatternData ι) (buildEntry : BuiltPort ι)

namespace PatternData

variable {ι : Type u} (setup : BuildSetup ι)

def size : PatternData ι → ℕ
  | anchor => 0
  | entry par _ => 1 + par.size

/-- The preceding layers are visited first; at the end of the recursion, the storage is reserved for the
number of layers and the largest of the ports. -/
def collectEntries : PatternData ι → ℕ → ℕ → PortData ι → Attempt (PortData ι) Unit
  | anchor, cntElm, maxSiz, dataBuilder => dataBuilder.reserve setup cntElm maxSiz
  | entry par buildEntry, cntElm, maxSiz, dataBuilder =>
    (par.collectEntries (cntElm + 1) (max buildEntry.prototype_.sizMark maxSiz) dataBuilder).bind
      fun _ dataBuilder => dataBuilder.emplace setup buildEntry

/-- The ports to be created, from the innermost layer to the outermost one. -/
def ports : PatternData ι → List (BuiltPort ι)
  | anchor => []
  | entry par buildEntry => par.ports ++ [buildEntry]

end PatternData

/-! ## The wiring of a port -/

/-- The builder for the weaving pattern of a port. -/
structure WeavingBuilder (ι : Type u) where
  leadPorts : List (PortRef ι)
  resultSlot : ℕ
  nodeSymb_ : StrView
  portSpec_ : StrView
  prototype_ : Prototype

namespace WeavingBuilder

variable {ι : Type u} (setup : BuildSetup ι)

/-- Connect the next input slot. -/
def attachToLeadPort (lead : ι) (portNr : ℕ) (w : WeavingBuilder ι) : Attempt (WeavingBuilder ι) Unit :=
  if w.prototype_.FAN_I ≤ w.leadPorts.length then .raised w
  else match setup.getPort lead portNr with
    | none => .raised w
    | some portRef => (setup.append portRef w.leadPorts).within fun leadPorts =>
      { w with leadPorts := leadPorts }

/-- Connect a number of slots to the given port on the lead nodes with the numbers of these slots. -/
def attachRemaining (knownLeads : List ι) (defaultPort : ℕ) :
    ℕ → WeavingBuilder ι → Attempt (WeavingBuilder ι) Unit
  | 0, w => .ok () w
  | cnt + 1, w => match knownLeads[w.leadPorts.length]? with
    | none => .raised w
    | some lead => (w.attachToLeadPort setup lead defaultPort).bind fun _ w =>
      attachRemaining knownLeads defaultPort cnt w

/-- **Connect all the input slots which are not connected yet.** -/
def connectRemainingInputs (knownLeads : List ι) (defaultPort : ℕ) (w : WeavingBuilder ι) :
    Attempt (WeavingBuilder ι) Unit :=
  if w.prototype_.FAN_I < w.leadPorts.length then .halted
  else if knownLeads.length < w.prototype_.FAN_I then .raised w
  else w.attachRemaining setup knownLeads defaultPort (w.prototype_.FAN_I - w.leadPorts.length)

def selectResultSlot (idx : ℕ) (w : WeavingBuilder ι) : WeavingBuilder ι := { w with resultSlot := idx }

/-- **Prepare the port to be created.** The lead ports are moved out of the builder before the ID of the
port is established. -/
def build (w : WeavingBuilder ι) : Attempt (WeavingBuilder ι) (BuiltPort ι) :=
  if w.leadPorts.length ≠ w.prototype_.FAN_I then .halted
  else ((ProcID.describe w.nodeSymb_ w.portSpec_).within fun _ => { w with leadPorts := [] }).bind
    fun procID moved => .ok ⟨procID, w.leadPorts, w.resultSlot, w.prototype_⟩ moved

end WeavingBuilder

/-! ## Node builder and port builder -/

/-- The builder for a node. -/
structure NodeBuilder (ι : Type u) where
  symbol_ : StrView
  leads_ : List ι
  patternData_ : PatternData ι

/-- The finished node: its ports and its lead nodes. -/
structure Connectivity (ι : Type u) where
  ports : List (BuiltPort ι)
  leads : List ι
  deriving DecidableEq, Repr

/-- The builder for a port, on top of the node builder. -/
structure PortBuilder (ι : Type u) extends NodeBuilder ι where
  weavingBuilder_ : WeavingBuilder ι
  defaultPort_ : ℕ

/-- A lead node is given by its number in the list of leads, or by reference. -/
inductive Lead (ι : Type u)
  | idx (idx : ℕ)
  | node (leadNode : ι)
  deriving DecidableEq, Repr

namespace NodeBuilder

variable {ι : Type u} (setup : BuildSetup ι)

def addLead (lead : ι) (b : NodeBuilder ι) : Attempt (NodeBuilder ι) Unit :=
  (setup.append lead b.leads_).within fun leads => { b with leads_ := leads }

/-- **Enter the definition of a port** (`preparePort`), to wrap this processing function (`invoke`). -/
def preparePort (portSpec : StrView) (prototype : Prototype) (b : NodeBuilder ι) : PortBuilder ι where
  toNodeBuilder := b
  weavingBuilder_ :=
    { leadPorts := []
      resultSlot := 0
      nodeSymb_ := b.symbol_
      portSpec_ := portSpec
      prototype_ := prototype }
  -- by default use next free port
  defaultPort_ := b.patternData_.size

/-- **Complete the node**: create all the ports. An exception is only raised while the storage is reserved,
when nothing has been moved out of the pattern data yet. -/
def build (b : NodeBuilder ι) : Attempt (NodeBuilder ι) (Connectivity ι) :=
  ((b.patternData_.collectEntries setup 0 0 .initial).bind fun _ d => .ok
    ⟨d.elms, b.leads_⟩ d).within fun _ => b

end NodeBuilder

namespace PortBuilder

variable {ι : Type u} [DecidableEq ι] (setup : BuildSetup ι)

def asResultSlot (r : ℕ) (b : PortBuilder ι) : PortBuilder ι :=
  { b with weavingBuilder_ := b.weavingBuilder_.selectResultSlot r }

/-- Use the given port number as default for all the connections to follow. -/
def useLeadPort (defaultPort : ℕ) (b : PortBuilder ι) : PortBuilder ι :=
    { b with defaultPort_ := defaultPort }

/-- Connect the next input slot to the lead node with this number. -/
def connectKnownLead (idx port : ℕ) (b : PortBuilder ι) : Attempt (PortBuilder ι) Unit :=
  match b.leads_[idx]? with
  | none => .raised b
  | some lead => (b.weavingBuilder_.attachToLeadPort setup lead port).within fun w =>
    { b with weavingBuilder_ := w }

/-- **Connect the next input slot to a port of a lead node**; a node given by reference is added to the leads
unless it is found there. -/
def connectLeadPort (lead : Lead ι) (port : ℕ) (b : PortBuilder ι) : Attempt (PortBuilder ι) Unit :=
  match lead with
  | .idx idx => b.connectKnownLead setup idx port
  | .node leadNode =>
    let knownEntry := b.leads_.idxOf leadNode
    (if knownEntry = b.leads_.length then
        (b.toNodeBuilder.addLead setup leadNode).within fun n => { b with toNodeBuilder := n }
      else .ok () b).bind fun _ b =>
    if knownEntry < b.leads_.length then b.connectKnownLead setup knownEntry port else .halted

/-- The port number is defaulted. -/
def connectLead (lead : Lead ι) (b : PortBuilder ι) : Attempt (PortBuilder ι) Unit :=
  b.connectLeadPort setup lead b.defaultPort_

/-- **Complete the wiring of the port** and return to the node builder, with one more layer of
pattern data. -/
def completePort (b : PortBuilder ι) : Attempt (PortBuilder ι) (NodeBuilder ι) :=
  ((b.weavingBuilder_.connectRemainingInputs setup b.leads_ b.defaultPort_).bind fun _ w => w.build).within
      (fun w => { b with weavingBuilder_ := w }) |>.bind
    fun port b => .ok { b.toNodeBuilder with patternData_ := .entry b.patternData_ port } b

end PortBuilder

/-! ## Usage -/

/-- The calls of a builder chain. -/
inductive Call (ι : Type u)
  | addLead (lead : ι)
  | preparePort (portSpec : StrView) (prototype : Prototype)
  | asResultSlot (r : ℕ)
  | connectLead (lead : Lead ι)
  | connectLeadPort (lead : Lead ι) (port : ℕ)
  | useLeadPort (defaultPort : ℕ)
  | completePort
  | build
  deriving DecidableEq, Repr

/-- A builder chain at the level of the node, within the definition of a port, or finished. -/
inductive Builder (ι : Type u)
  | node (builder : NodeBuilder ι)
  | port (builder : PortBuilder ι)
  | finished (connectivity : Connectivity ι)

namespace Builder

variable {ι : Type u} [DecidableEq ι] (setup : BuildSetup ι)

/-- Continue with the builder which is returned. -/
def next {σ α : Type u} (o : Attempt σ α) (done : α → Builder ι) (again : σ → Builder ι) :
    Attempt (Builder ι) Unit :=
  match o with
  | .ok a _ => .ok () (done a)
  | .raised s => .raised (again s)
  | .halted => .halted

/-- **The effect of a call**; a call which is not available at this level does not compile. -/
def perform : Builder ι → Call ι → Attempt (Builder ι) Unit
  | node b, .addLead lead => (b.addLead setup lead).within node
  | node b, .preparePort portSpec prototype => .ok () (.port (b.preparePort portSpec prototype))
  | node b, .build => next (b.build setup) finished node
  | port b, .asResultSlot r => .ok () (.port (b.asResultSlot r))
  | port b, .connectLead lead => (b.connectLead setup lead).within port
  | port b, .connectLeadPort lead nr => (b.connectLeadPort setup lead nr).within port
  | port b, .useLeadPort defaultPort => .ok () (.port (b.useLeadPort defaultPort))
  | port b, .completePort => next (b.completePort setup) node port
  | _, _ => .halted

/-- The lead nodes. -/
def leads : Builder ι → List ι
  | node b => b.leads_
  | port b => b.leads_
  | finished con => con.leads

/-- The ports which are completed. -/
def ports : Builder ι → List (BuiltPort ι)
  | node b => b.patternData_.ports
  | port b => b.patternData_.ports
  | finished con => con.ports

end Builder

end Lumiera.Steam.Engine
