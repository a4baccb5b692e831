import Mathlib.Data.Fintype.Card
import Lumiera.Base.Machine
import Lumiera.Base.CycleFreePath

/-! # Opening and closing of interfaces (`common/interface.c`)

Interfaces are registered as nodes, with a reference count. When an interface is opened for the
first time, its acquire function is invoked, which opens the interfaces it depends on by re-entrant
calls, and these are recorded as dependencies. Opening it again walks the recorded dependencies,
while closing walks them likewise, or invokes the release function, which closes them by re-entrant
calls. Each of these traversals maintains a stack of the nodes in process, to detect cycles; the
stack is threaded through the nodes, which is a list here. -/

namespace Lumiera.Common

/-- **The interfaces**, with the dependencies opened by the acquire function and closed by the
release function, as far as there are such functions. Whatever is opened is closed, in any order. -/
structure Interfaces (ι : Type) where
  acquire : ι → Option (List ι)
  release : ι → Option (List ι)
  balanced : ∀ i, ((release i).getD []).Perm ((acquire i).getD [])

/-- The interfaces an interface depends on. -/
def Interfaces.dependencies {ι : Type} (ifc : Interfaces ι) (i : ι) : List ι := (ifc.acquire i).getD []

/-- What happens to an interface node: its count changes to a new value, or one of its functions is
invoked. -/
inductive InterfaceEvent (ι : Type) where
  | incremented (node : ι) (refcnt : Nat)
  | acquired (node : ι)
  | released (node : ι)
  | decremented (node : ι) (refcnt : Nat)
  deriving DecidableEq, Repr

/-- The node an event is about. -/
def InterfaceEvent.node {ι : Type} : InterfaceEvent ι → ι
  | .incremented node _ => node
  | .acquired node => node
  | .released node => node
  | .decremented node _ => node

/-- The interface nodes and the static variables of the functions to open and to close. The opens
which were not closed yet, and what happened to the nodes, are noted down for the statements below.
-/
structure InterfaceRegistry (ι : Type) where
  refcnt : ι → Nat
  /-- the table of dependencies, unless not allocated yet -/
  deps : ι → Option (List ι)
  collect_dependencies : Bool
  openStack : List ι
  closeStack : List ι
  outstanding : List ι
  log : List (InterfaceEvent ι)

namespace InterfaceRegistry

variable {ι : Type} [DecidableEq ι]

/-- No interface was opened so far. -/
def initial : InterfaceRegistry ι where
  refcnt _ := 0
  deps _ := none
  collect_dependencies := false
  openStack := []
  closeStack := []
  outstanding := []
  log := []

/-- Reference counts are unsigned, with 32 bit. -/
def unsigned (n : Int) : Nat := (n % 2 ^ 32).toNat

variable (s : InterfaceRegistry ι)

/-- `++self->refcnt`. -/
def increment (self : ι) : InterfaceRegistry ι :=
  { s with
    refcnt := Function.update s.refcnt self (unsigned (s.refcnt self + 1))
    log := s.log ++ [.incremented self (unsigned (s.refcnt self + 1))] }

/-- `--self->refcnt`. -/
def decrement (self : ι) : InterfaceRegistry ι :=
  { s with
    refcnt := Function.update s.refcnt self (unsigned (s.refcnt self - 1))
    log := s.log ++ [.decremented self (unsigned (s.refcnt self - 1))] }

/-- Note down the invocation of a function of the interface. -/
def note (event : InterfaceEvent ι) : InterfaceRegistry ι := { s with log := s.log ++ [event] }

/-- Push a node on the stack of nodes which are about to be opened. -/
def pushOpen (self : ι) : InterfaceRegistry ι := { s with openStack := self :: s.openStack }

def popOpen : InterfaceRegistry ι := { s with openStack := s.openStack.tail }

/-- Push a node on the stack of nodes which are about to be closed. -/
def pushClose (self : ι) : InterfaceRegistry ι := { s with closeStack := self :: s.closeStack }

def popClose : InterfaceRegistry ι := { s with closeStack := s.closeStack.tail }

def setCollect (collect : Bool) : InterfaceRegistry ι := { s with collect_dependencies := collect }

/-- **Record a dependency** of the node on top of the stack; without any, a NULL pointer would be accessed. -/
def push_dependency (child : ι) : Option (InterfaceRegistry ι) :=
  match s.openStack with
  | [] => none
  | parent :: _ =>
    some { s with deps := Function.update s.deps parent (some ((s.deps parent).getD [] ++ [child])) }

/-- **Increment the count of all non-cyclic dependencies recursively**, limited to some depth of recursion. -/
def depwalk : Nat → ι → InterfaceRegistry ι → Option (InterfaceRegistry ι)
  | 0, _, _ => none
  | depth + 1, self, s =>
    ((s.deps self).getD []).foldlM
      (fun s dep =>
        if dep ∈ s.openStack then some s
        else (depwalk depth dep ((s.increment dep).pushOpen dep)).map popOpen) s

/-- **Open an interface node**, limited to some depth of recursion. -/
def open_interfacenode (ifc : Interfaces ι) : Nat → ι → InterfaceRegistry ι → Option (InterfaceRegistry ι)
  | 0, _, _ => none
  | depth + 1, self, s =>
    (if s.collect_dependencies then s.push_dependency self else some s).bind fun s =>
      -- cycles don't refcount
      if self ∈ s.openStack then
        some s
      else
        let collect_dependencies_bak := s.collect_dependencies
        let s := (s.increment self).pushOpen self
        let opened :=
          if s.refcnt self = 1 then
            match ifc.acquire self with
            | some interfaces =>
              interfaces.foldlM (fun s interface => open_interfacenode ifc depth interface s)
                ((s.setCollect (s.deps self).isNone).note (.acquired self))
            | none => some s
          else
            depwalk depth self (s.setCollect false)
        opened.map fun s => (s.setCollect collect_dependencies_bak).popOpen

/-- **Close an interface node**, limited to some depth of recursion. -/
def interfacenode_close (ifc : Interfaces ι) : Nat → ι → InterfaceRegistry ι → Option (InterfaceRegistry ι)
  | 0, _, _ => none
  | depth + 1, self, s =>
    if self ∈ s.closeStack then
      some s
    else
      let s := s.pushClose self
      let closed :=
        if s.refcnt self = 1 then
          match ifc.release self with
          | some interfaces =>
            interfaces.foldlM (fun s interface => interfacenode_close ifc depth interface s)
              (s.note (.released self))
          | none => some s
        else
          ((s.deps self).getD []).foldlM (fun s dep => interfacenode_close ifc depth dep s) s
      closed.map fun s => s.popClose.decrement self

end InterfaceRegistry

/-! ## Operations -/

/-- Calls from the outside. -/
inductive InterfaceOperation (ι : Type) where
  | open (interface : ι)
  | close (interface : ι)
  deriving DecidableEq, Repr

namespace InterfaceRegistry

variable {ι : Type} [DecidableEq ι] [Fintype ι]

/-- The depth of recursion which suffices: each node is on the stack at most once. -/
def maxDepth (ι : Type) [Fintype ι] : Nat := Fintype.card ι + 1

/-- **Perform an operation**; an interface can be closed only when it was opened before. -/
def perform (ifc : Interfaces ι) (s : InterfaceRegistry ι) :
    InterfaceOperation ι → Option (InterfaceRegistry ι)
  | .open interface =>
    (s.open_interfacenode ifc (maxDepth ι) interface).map fun s' =>
      { s' with outstanding := interface :: s'.outstanding }
  | .close interface =>
    if interface ∈ s.outstanding then
      (s.interfacenode_close ifc (maxDepth ι) interface).map fun s' =>
        { s' with outstanding := s'.outstanding.erase interface }
    else
      none

/-- The runs of the registry. -/
def machine (ifc : Interfaces ι) : Machine (InterfaceRegistry ι) (InterfaceOperation ι) :=
  .ofFun initial (perform ifc)

end InterfaceRegistry

/-! ## The traversals which count references

Opening an interface node, walking its dependencies and closing it again are three different
traversals. Each of them counts a node once for every cycle-free path leading there from the start,
without the nodes on the stack. Here is what the first two have in common, and the walk of the
dependencies (`depwalk_spec`). -/

open List

variable {ι : Type}

/-! ## Events at a node -/

/-- **The events at a node**: its count goes from one value to another one. The acquire function is
invoked directly after the count went from 0 to 1, the release function directly before it goes from
1 to 0, and they are never invoked otherwise. -/
inductive Counted (ifc : Interfaces ι) (n : ι) : Nat → List (InterfaceEvent ι) → Nat → Prop
  | nil (c : Nat) : Counted ifc n c [] c
  | incremented {c d : Nat} {events : List (InterfaceEvent ι)} : Counted ifc n (c + 1) events d →
      Counted ifc n c
        (.incremented n (c + 1) ::
          ((if c = 0 ∧ (ifc.acquire n).isSome then [.acquired n] else []) ++ events)) d
  | decremented {c d : Nat} {events : List (InterfaceEvent ι)} : Counted ifc n c events d →
      Counted ifc n (c + 1)
        ((if c = 0 ∧ (ifc.release n).isSome then [.released n] else []) ++ .decremented n c :: events) d

variable {n : ι} {c : Nat}

theorem Counted.trans {ifc : Interfaces ι} {a b : Nat} {first second : List (InterfaceEvent ι)}
    (h : Counted ifc n a first b) (h' : Counted ifc n b second c) : Counted ifc n a (first ++ second) c := by
  induction h with
  | nil c => exact h'
  | incremented _ ih =>
    rw [cons_append, append_assoc]
    exact .incremented (ih h')
  | decremented _ ih =>
    rw [append_assoc]
    exact .decremented (ih h')

variable [DecidableEq ι]

/-- The events which are about a node. -/
def eventsOf (n : ι) (events : List (InterfaceEvent ι)) : List (InterfaceEvent ι) :=
  events.filter fun event => event.node = n

@[simp] theorem eventsOf_append (n : ι) (first second : List (InterfaceEvent ι)) :
    eventsOf n (first ++ second) = eventsOf n first ++ eventsOf n second :=
  filter_append ..

theorem eventsOf_of_forall {events : List (InterfaceEvent ι)} (h : ∀ event ∈ events, event.node = n) :
    eventsOf n events = events :=
  filter_eq_self.mpr fun event hmem => by simpa using h event hmem

theorem eventsOf_of_forall_ne (events : List (InterfaceEvent ι))
    (h : ∀ event ∈ events, event.node ≠ n) : eventsOf n events = [] :=
  filter_eq_nil_iff.mpr fun event hmem => by simpa using h event hmem

/-- The events when the count of a node is incremented. -/
def incrementEvents (ifc : Interfaces ι) (x : ι) (c : Nat) : List (InterfaceEvent ι) :=
  .incremented x (c + 1) :: (if c = 0 ∧ (ifc.acquire x).isSome then [.acquired x] else [])

variable {x : ι}

omit [DecidableEq ι] in
theorem node_of_mem_incrementEvents {ifc : Interfaces ι} {event : InterfaceEvent ι}
    (h : event ∈ incrementEvents ifc x c) : event.node = x := by
  rcases mem_cons.mp h with rfl | h
  · rfl
  · split_ifs at h
    · rw [mem_singleton.mp h]
      rfl
    · cases h

namespace InterfaceRegistry

/-! ## Reference counts -/

theorem unsigned_add_one (h : c + 1 < 2 ^ 32) : unsigned (c + 1) = c + 1 := by
  unfold unsigned
  omega

theorem unsigned_sub_one (hpos : 0 < c) (h : c < 2 ^ 32) : unsigned (c - 1) = c - 1 := by
  unfold unsigned
  omega

variable {ifc : Interfaces ι} {s s' s'' : InterfaceRegistry ι} {count count' : ι → Nat}

/-! ## Walking the dependencies -/

/-- **Nodes were opened**: the counts were incremented, with the corresponding events, and the
stacks are as before; moreover, the children opened directly are recorded for the parent on top of
the stack, if demanded. -/
structure Opens (ifc : Interfaces ι) (count : ι → Nat) (children : List ι)
    (s s' : InterfaceRegistry ι) : Prop where
  refcnt : ∀ n, s'.refcnt n = s.refcnt n + count n
  openStack : s'.openStack = s.openStack
  closeStack : s'.closeStack = s.closeStack
  collect : s'.collect_dependencies = s.collect_dependencies
  outstanding : s'.outstanding = s.outstanding
  recorded : ∀ n ∈ s.openStack, (s'.deps n).getD [] = (s.deps n).getD [] ++
    if s.collect_dependencies = true ∧ s.openStack.head? = some n then children else []
  log : ∃ events, s'.log = s.log ++ events ∧
    ∀ n, Counted ifc n (s.refcnt n) (eventsOf n events) (s'.refcnt n)

/-- **The state between calls**: all nodes in use which are not on the stack have their dependencies
recorded, which are in use as well; and those on the stack are in use. -/
structure Settled (ifc : Interfaces ι) (s : InterfaceRegistry ι) (stack : List ι) : Prop where
  used : ∀ n, n ∉ stack → 0 < s.refcnt n →
    (s.deps n).getD [] = ifc.dependencies n ∧ ∀ d ∈ ifc.dependencies n, 0 < s.refcnt d
  recorded : ∀ n, n ∉ stack → s.deps n = none ∨ (s.deps n).getD [] = ifc.dependencies n
  stacked : ∀ n ∈ stack, 0 < s.refcnt n

/-- The counts do not exceed the range of unsigned numbers. -/
def Fits (s : InterfaceRegistry ι) (count : ι → Nat) : Prop := ∀ n, s.refcnt n + count n < 2 ^ 32

theorem Opens.refl (ifc : Interfaces ι) (s : InterfaceRegistry ι) : Opens ifc (fun _ => 0) [] s s := by
  refine ⟨fun n => rfl, rfl, rfl, rfl, rfl, fun n _ => ?_, [], (append_nil _).symm, fun n => .nil _⟩
  rw [ite_self, append_nil]

variable {children : List ι}

theorem Opens.trans {children' : List ι} (h : Opens ifc count children s s')
    (h' : Opens ifc count' children' s' s'') :
    Opens ifc (fun n => count n + count' n) (children ++ children') s s'' := by
  obtain ⟨events, hlog, hcounted⟩ := h.log
  obtain ⟨events', hlog', hcounted'⟩ := h'.log
  refine ⟨fun n => ?_, h'.openStack.trans h.openStack, h'.closeStack.trans h.closeStack,
    h'.collect.trans h.collect, h'.outstanding.trans h.outstanding, fun n hn => ?_,
    events ++ events', ?_, fun n => ?_⟩
  · rw [h'.refcnt, h.refcnt, Nat.add_assoc]
  · rw [h'.recorded n (by rwa [h.openStack]), h.recorded n hn, h.collect, h.openStack]
    split_ifs
    · rw [append_assoc]
    · rw [append_nil]
  · rw [hlog', hlog, append_assoc]
  · rw [eventsOf_append]
    exact (hcounted n).trans (hcounted' n)

theorem Opens.mono (h : Opens ifc count children s s') (hn : 0 < s.refcnt n) : 0 < s'.refcnt n := by
  rw [h.refcnt]
  omega

omit [DecidableEq ι] in
theorem Fits.left (h : Fits s fun n => count n + count' n) : Fits s count := fun n => by
  have hn : s.refcnt n + (count n + count' n) < 2 ^ 32 := h n
  omega

theorem Fits.right (h : Fits s fun n => count n + count' n)
    (hopens : Opens ifc count children s s') : Fits s' count' := fun n => by
  have hn : s.refcnt n + (count n + count' n) < 2 ^ 32 := h n
  rw [hopens.refcnt]
  omega

/-- The number of cycle-free paths starting with one of the given nodes. -/
noncomputable def pathsFrom (ifc : Interfaces ι) (stack : List ι) (nodes : List ι) (n : ι) : Nat :=
  (nodes.map fun d => pathCount ifc.dependencies stack d n).sum

omit [DecidableEq ι] in
theorem pathsFrom_cons (stack : List ι) (d : ι) (nodes : List ι) : pathsFrom ifc stack (d :: nodes) = fun n =>
    pathCount ifc.dependencies stack d n + pathsFrom ifc stack nodes n :=
  funext fun _ => sum_cons

/-- The state in which the dependencies of a node are opened: its count is incremented, and it is on
the stack. -/
def entered (ifc : Interfaces ι) (s : InterfaceRegistry ι) (x : ι) (collect : Bool) : InterfaceRegistry ι :=
  { ((s.increment x).pushOpen x).setCollect collect with
    log := s.log ++ incrementEvents ifc x (s.refcnt x) }

theorem increment_refcnt_self (h : s.refcnt x + 1 < 2 ^ 32) : (s.increment x).refcnt x = s.refcnt x + 1 :=
  (Function.update_self ..).trans (unsigned_add_one h)

theorem increment_refcnt_of_ne (h : n ≠ x) : (s.increment x).refcnt n = s.refcnt n :=
  Function.update_of_ne h ..

variable {collect : Bool}

theorem entered_pos (hx : s.refcnt x + 1 < 2 ^ 32) (hn : 0 < s.refcnt n) :
    0 < (entered ifc s x collect).refcnt n := by
  show 0 < (s.increment x).refcnt n
  by_cases hsame : n = x
  · subst hsame
    rw [increment_refcnt_self hx]
    omega
  · rwa [increment_refcnt_of_ne hsame]

variable {stack : List ι}

theorem Settled.enter (h : Settled ifc s stack)
    (hx : s.refcnt x + 1 < 2 ^ 32) : Settled ifc (entered ifc s x collect) (x :: stack) := by
  refine ⟨fun n hn hpos => ?_, fun n hn => ?_, fun n hn => ?_⟩
  · obtain ⟨hne, hn⟩ := not_or.mp (mem_cons.not.mp hn)
    have hpos' : 0 < s.refcnt n := by rwa [← increment_refcnt_of_ne (s := s) hne]
    obtain ⟨hdeps, hused⟩ := h.used n hn hpos'
    exact ⟨hdeps, fun d hd => entered_pos hx (hused d hd)⟩
  · exact h.recorded n (not_or.mp (mem_cons.not.mp hn)).2
  · rcases mem_cons.mp hn with rfl | hn
    · show 0 < (s.increment n).refcnt n
      rw [increment_refcnt_self hx]
      omega
    · exact entered_pos hx (h.stacked n hn)

omit [DecidableEq ι] in
theorem Settled.leave (h : Settled ifc s (x :: stack)) (collect : Bool)
    (hdeps : (s.deps x).getD [] = ifc.dependencies x) (hused : ∀ d ∈ ifc.dependencies x, 0 < s.refcnt d) :
    Settled ifc ((s.setCollect collect).popOpen) stack := by
  have hother : ∀ n, n ∉ stack → n ≠ x → n ∉ x :: stack := fun n hn hne hmem =>
    (mem_cons.mp hmem).elim hne hn
  refine ⟨fun n hn hpos => ?_, fun n hn => ?_, fun n hn => h.stacked n (mem_cons_of_mem _ hn)⟩
  · by_cases hsame : n = x
    · subst hsame
      exact ⟨hdeps, hused⟩
    · exact h.used n (hother n hn hsame) hpos
  · by_cases hsame : n = x
    · subst hsame
      exact Or.inr hdeps
    · exact h.recorded n (hother n hn hsame)

section Finite

variable [Fintype ι]

/-- **Visiting a node**: when its dependencies were opened while it was on the stack, it was counted
for all paths starting there. -/
theorem Opens.visit {done : InterfaceRegistry ι} (hx : x ∉ s.openStack) (hfits : s.refcnt x + 1 < 2 ^ 32)
    (h : Opens ifc (pathsFrom ifc (x :: s.openStack) (ifc.dependencies x)) children (entered ifc s x collect) done) :
    Opens ifc (pathCount ifc.dependencies s.openStack x) [] s ((done.setCollect s.collect_dependencies).popOpen) := by
  have hrefcnt : ∀ n, done.refcnt n = s.refcnt n + pathCount ifc.dependencies s.openStack x n := by
    intro n
    rw [h.refcnt, pathCount_of_not_mem hx]
    show (s.increment x).refcnt n + _ = _
    by_cases hn : n = x
    · subst hn
      rw [increment_refcnt_self hfits, if_pos rfl, Nat.add_assoc]
      rfl
    · rw [increment_refcnt_of_ne hn, if_neg hn, Nat.zero_add]
      rfl
  refine ⟨hrefcnt, ?_, h.closeStack, rfl, h.outstanding, fun n hn => ?_, ?_⟩
  · show done.openStack.tail = _
    rw [h.openStack]
    rfl
  · have hne : n ≠ x := fun hsame => hx (hsame ▸ hn)
    refine (h.recorded n (mem_cons_of_mem _ hn)).trans ?_
    have hhead : ¬ (collect = true ∧ (x :: s.openStack).head? = some n) := fun hboth =>
      hne (Option.some.inj hboth.2).symm
    rw [ite_self]
    exact congrArg _ (if_neg hhead)
  · obtain ⟨events, hlog, hcounted⟩ := h.log
    refine ⟨incrementEvents ifc x (s.refcnt x) ++ events, ?_, fun n => ?_⟩
    · rw [← append_assoc]
      exact hlog
    · have hcounted' : Counted ifc n ((s.increment x).refcnt n) (eventsOf n events)
        (done.refcnt n) := hcounted n
      rw [eventsOf_append]
      by_cases hn : n = x
      · subst hn
        rw [increment_refcnt_self hfits] at hcounted'
        rw [eventsOf_of_forall fun event => node_of_mem_incrementEvents]
        exact .incremented hcounted'
      · rw [increment_refcnt_of_ne hn] at hcounted'
        rw [eventsOf_of_forall_ne _ fun event hmem hsame =>
          hn (hsame.symm.trans (node_of_mem_incrementEvents hmem)), nil_append]
        exact hcounted'

theorem Fits.enter (collect : Bool) (hx : x ∉ s.openStack)
    (h : Fits s (pathCount ifc.dependencies s.openStack x)) : s.refcnt x + 1 < 2 ^ 32 ∧ Fits (entered ifc s x collect)
    (pathsFrom ifc (x :: s.openStack) (ifc.dependencies x)) := by
  have hself : s.refcnt x + 1 < 2 ^ 32 := by
    have hpos := pathCount_self_pos ifc.dependencies hx
    have hfits := h x
    omega
  refine ⟨hself, fun n => ?_⟩
  have hfits := h n
  rw [pathCount_of_not_mem hx] at hfits
  show (s.increment x).refcnt n + pathsFrom ifc (x :: s.openStack) (ifc.dependencies x) n < 2 ^ 32
  unfold pathsFrom
  by_cases hn : n = x
  · subst hn
    rw [increment_refcnt_self hself]
    rw [if_pos rfl] at hfits
    omega
  · rw [increment_refcnt_of_ne hn]
    omega

omit [Fintype ι] in
theorem enter_of_not_acquired (h : ¬ (s.refcnt x = 0 ∧ (ifc.acquire x).isSome)) (hx : s.refcnt x + 1 < 2 ^ 32)
    (collect : Bool) : ((s.increment x).pushOpen x).setCollect collect = entered ifc s x collect := by
  have hevents : incrementEvents ifc x (s.refcnt x) = [.incremented x (s.refcnt x + 1)] := by
    unfold incrementEvents
    rw [if_neg h]
  unfold entered
  rw [hevents, ← unsigned_add_one hx]
  rfl

omit [Fintype ι] in
theorem enter_of_acquired (h : s.refcnt x = 0 ∧ (ifc.acquire x).isSome)
    (hx : s.refcnt x + 1 < 2 ^ 32) (collect : Bool) :
    (((s.increment x).pushOpen x).setCollect collect).note (.acquired x) = entered ifc s x collect := by
  have hevents : incrementEvents ifc x (s.refcnt x) =
      [.incremented x (s.refcnt x + 1)] ++ [.acquired x] := by
    unfold incrementEvents
    rw [if_pos h]
    rfl
  unfold entered
  rw [hevents, ← append_assoc, ← unsigned_add_one hx]
  rfl

omit [DecidableEq ι] [Fintype ι] in
theorem pathsFrom_cons_of_mem {d : ι} (nodes : List ι) (h : d ∈ stack) :
    pathsFrom ifc stack (d :: nodes) = pathsFrom ifc stack nodes := by
  rw [pathsFrom_cons]
  funext n
  rw [pathCount_of_mem h, Nat.zero_add]

/-- Walking the recorded dependencies of a node in use counts the paths starting with them. -/
theorem depwalk_spec {depth : Nat} (hdeps : (s.deps x).getD [] = ifc.dependencies x)
    (hused : ∀ d ∈ ifc.dependencies x, 0 < s.refcnt d) (hsettled : Settled ifc s s.openStack)
    (hdepth : unvisited s.openStack < depth)
    (hfits : Fits s (pathsFrom ifc s.openStack (ifc.dependencies x)))
    (hcollect : s.collect_dependencies = false) :
    ∃ s', depwalk depth x s = some s' ∧
      Opens ifc (pathsFrom ifc s.openStack (ifc.dependencies x)) [] s s' ∧ s'.deps = s.deps ∧
      Settled ifc s' s'.openStack := by
  induction depth generalizing x s with
  | zero => exact absurd hdepth (Nat.not_lt_zero _)
  | succ depth ih =>
    unfold depwalk
    rw [hdeps]
    refine Machine.foldlM_rule
      (C := fun nodes s => (∀ d ∈ nodes, 0 < s.refcnt d) ∧ Settled ifc s s.openStack ∧
        unvisited s.openStack < depth + 1 ∧ Fits s (pathsFrom ifc s.openStack nodes) ∧
        s.collect_dependencies = false)
      (R := fun nodes s s' => Opens ifc (pathsFrom ifc s.openStack nodes) [] s s' ∧ s'.deps = s.deps ∧
        Settled ifc s' s'.openStack)
      ?_ ?_ ⟨hused, hsettled, hdepth, hfits, hcollect⟩
    · rintro s ⟨-, hsettled, -⟩
      exact ⟨.refl ifc s, rfl, hsettled⟩
    · rintro d nodes s ⟨hused, hsettled, hdepth, hfits, hcollect⟩
      have hfits' := hfits
      by_cases hcycle : d ∈ s.openStack
      · -- cycles are not counted
        rw [pathsFrom_cons_of_mem nodes hcycle] at hfits ⊢
        rw [if_pos hcycle]
        exact ⟨s, rfl, ⟨fun d hd => hused d (mem_cons_of_mem _ hd), hsettled, hdepth, hfits, hcollect⟩,
          fun u hu => hu⟩
      · rw [if_neg hcycle]
        have hpos : 0 < s.refcnt d := hused d mem_cons_self
        obtain ⟨hself, hfitsInner⟩ := hfits'.left.enter s.collect_dependencies hcycle
        obtain ⟨hdeps, husedDeps⟩ := hsettled.used d hcycle hpos
        obtain ⟨done, hwalk, hopens, hsame, hsettledDone⟩ := ih
          (s := entered ifc s d s.collect_dependencies) hdeps
          (fun e he => entered_pos hself (husedDeps e he)) (hsettled.enter hself)
          (Nat.lt_of_lt_of_le (unvisited_push hcycle) (Nat.lt_succ_iff.mp hdepth)) hfitsInner hcollect
        have hvisit := hopens.visit hcycle hself
        have hcollectDone : done.setCollect s.collect_dependencies = done := by
          rw [← show done.collect_dependencies = s.collect_dependencies from hopens.collect]
          rfl
        rw [hcollectDone] at hvisit
        have hstack : done.openStack = d :: s.openStack := hopens.openStack
        have hleave : Settled ifc done.popOpen s.openStack := by
          rw [hstack] at hsettledDone
          have hleave := hsettledDone.leave s.collect_dependencies (hsame ▸ hdeps) fun e he =>
            hopens.mono (entered_pos hself (husedDeps e he))
          rwa [hcollectDone] at hleave
        refine ⟨done.popOpen, ?_,
          ⟨fun e he => hvisit.mono (hused e (mem_cons_of_mem _ he)), ?_, ?_, ?_, ?_⟩, ?_⟩
        · have hunused : ¬ (s.refcnt d = 0 ∧ (ifc.acquire d).isSome) := fun hboth => by omega
          rw [show (s.increment d).pushOpen d = entered ifc s d s.collect_dependencies from
            enter_of_not_acquired hunused hself s.collect_dependencies, hwalk]
          rfl
        · rwa [hvisit.openStack]
        · rwa [hvisit.openStack]
        · rw [hvisit.openStack]
          exact hfits'.right hvisit
        · exact hvisit.collect.trans hcollect
        · rintro u ⟨hrest, hdepsRest, hsettledRest⟩
          rw [hvisit.openStack] at hrest
          exact ⟨hvisit.trans hrest, hdepsRest.trans hsame, hsettledRest⟩

end Finite

end InterfaceRegistry

end Lumiera.Common
