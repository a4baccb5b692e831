import Mathlib.Data.List.Nodup
import Lumiera.Vault.Gear.Activity

/-! # Terms of the Activity-Language (`vault/gear/activity-term.hpp`)

A Term is a builder to place Activities into memory and to connect them into a chain. Covered here
is the scheme for a calculation job, and the notifications to wire up several such jobs. What is
built remains in memory at the same address; re-use of storage is a concern of the allocator. -/

namespace Lumiera.Vault.Gear

open Function List

/-- **All Activities allocated**, each one at its address. -/
abbrev Memory := List Activity

namespace Memory

variable (mem : Memory)

/-- The next Activity in the chain. -/
def next (a : Addr) : Option Addr := mem[a]?.bind (·.next)

/-- The condition of a Gate. -/
def condition? (a : Addr) : Option Condition := mem[a]?.bind (·.verb.condition?)

/-- The time window of a `POST`. -/
def timeWindow? (a : Addr) : Option TimeWindow := mem[a]?.bind (·.verb.timeWindow?)

/-- Allocate a new Activity. -/
def create (act : Activity) : Addr × Memory := (mem.length, mem ++ [act])

def setNext (a : Addr) (next : Option Addr) : Memory :=
  mem.modify a fun act => { act with next := next }

def setVerb (a : Addr) (verb : Verb) : Memory := mem.modify a fun act => { act with verb := verb }

/-- Insert the target into the chain, after the anchor. -/
def insert (anchor target : Addr) : Memory :=
  (mem.setNext target (mem.next anchor)).setNext anchor (some target)

/-- The last Activity of a chain; the chain is to have no more than the given length. -/
def findTail : Nat → Addr → Option Addr
  | 0, _ => none
  | length + 1, chain => (mem.next chain).elim (some chain) (findTail length)

end Memory

/-! ## Building a Term -/

/-- Descriptor of a job: the functor, the nominal time, and the parts of the invocation key. -/
structure Job where
  jobClosure : Nat
  nominalTime : Int
  w1 : Nat
  w2 : Nat
  deriving DecidableEq, Repr

/-- **A Term**, which describes a calculation job. -/
structure Term where
  invoke_ : Addr
  post_ : Addr
  gate_ : Addr
  deriving DecidableEq, Repr

namespace Memory

variable (mem : Memory)

/-- The `INVOKE` with its two `FEED` records. -/
def setupInvocation (job : Job) : Addr × Memory :=
  let (feed1, mem) := mem.create ⟨.FEED job.w1 job.w2, none⟩
  let (feed2, mem) := mem.create ⟨.FEED 0 0, none⟩
  let mem := mem.setNext feed1 (some feed2)
  mem.create ⟨.INVOKE job.jobClosure job.nominalTime, some feed1⟩

/-- The `POST` as entrance point. -/
def setupPost (start dead : Int) (followUp : Addr) : Addr × Memory :=
  mem.create ⟨.POST ⟨start, dead⟩, some followUp⟩

/-- The Gate, with the deadline of the `POST`; there are no prerequisites yet. -/
def setupGate (post : Addr) : Option (Addr × Memory) := do
  let timeWindow ← mem.timeWindow? post
  let (gate, mem) := mem.create ⟨.GATE ⟨0, timeWindow.dead⟩, none⟩
  some (gate, mem.insert post gate)

/-- Signal the start and the end of processing. -/
def insertWorkBracket (gate : Addr) : Option Memory := do
  let (start, mem) := mem.create ⟨.WORKSTART, none⟩
  let (stop, mem) := mem.create ⟨.WORKSTOP, none⟩
  let mem := mem.insert gate start
  let tail ← mem.findTail mem.length (← mem.next start)
  some (mem.insert tail stop)

/-- **Build a calculation job** (`buildCalculationJob`). -/
def buildCalculationJob (job : Job) (start dead : Int) : Option (Term × Memory) := do
  let (invoke, mem) := mem.setupInvocation job
  let (post, mem) := mem.setupPost start dead invoke
  let (gate, mem) ← mem.setupGate post
  let mem ← mem.insertWorkBracket gate
  some (⟨invoke, post, gate⟩, mem)

/-- Block the Term waiting for a notification (`expectNotification`). -/
def expectNotification (term : Term) (notificationSrc : Addr) (unlimitedTime : Bool) :
    Option Memory := do
  let condition ← mem.condition? term.gate_
  let timeWindow ← mem.timeWindow? term.post_
  let mem := mem.setVerb term.gate_ (.GATE condition.incDependencies)
  let triggerTimeStart := if unlimitedTime then Lib.Time.ANYTIME else timeWindow.life
  some (mem.setVerb notificationSrc (.NOTIFY (some term.gate_) triggerTimeStart))

/-- **Append a notification** to the end of a Term's chain (`appendNotificationTo`); the target Term
thereby becomes dependent on this Term. The result is the address of the `NOTIFY`. -/
def appendNotificationTo (term targetTerm : Term) (unlimitedTime : Bool) :
    Option (Addr × Memory) := do
  let (success, mem) := mem.create ⟨.NOTIFY none 0, none⟩
  let tail ← mem.findTail mem.length term.invoke_
  let mem := mem.insert tail success
  let mem ← mem.expectNotification targetTerm success unlimitedTime
  some (success, mem)

/-! ## Access to memory -/

/-- The verb stored at an address, without the condition of a Gate. -/
def verb? (a : Addr) : Option Verb := mem[a]?.map (·.verb.fixed)

variable {mem} {a b : Addr}

theorem lt_of_verb? {verb : Verb} (h : mem.verb? a = some verb) : a < mem.length := by
  obtain ⟨act, hact, -⟩ := Option.map_eq_some_iff.mp h
  exact (List.getElem?_eq_some_iff.mp hact).1

theorem lt_of_next (h : mem.next a = some b) : a < mem.length := by
  obtain ⟨act, hact, -⟩ := Option.bind_eq_some_iff.mp h
  exact (List.getElem?_eq_some_iff.mp hact).1

theorem getElem?_of_gate (h : mem.verb? a = some (.GATE ⟨0, 0⟩)) :
    ∃ condition, mem[a]? = some ⟨.GATE condition, mem.next a⟩ ∧
      mem.condition? a = some condition := by
  obtain ⟨⟨verb, next⟩, hact, hfixed⟩ := Option.map_eq_some_iff.mp h
  obtain ⟨-, condition, rfl⟩ := Verb.fixed_eq_gate_iff.mp hfixed
  exact ⟨condition, by rw [Memory.next, hact]; rfl, by rw [condition?, hact]; rfl⟩

theorem getElem?_setNext (next : Option Addr) (b : Addr) :
    (mem.setNext a next)[b]? =
      mem[b]?.map fun act => if a = b then { act with next := next } else act := by
  rw [setNext, getElem?_modify]
  rfl

theorem getElem?_setVerb (verb : Verb) (b : Addr) :
    (mem.setVerb a verb)[b]? =
      mem[b]?.map fun act => if a = b then { act with verb := verb } else act := by
  rw [setVerb, getElem?_modify]
  rfl

variable {next : Option Addr}

theorem next_setNext (ha : a < mem.length) : (mem.setNext a next).next = update mem.next a next := by
  funext b
  rw [Memory.next, getElem?_setNext]
  by_cases hab : b = a
  · subst hab
    rw [getElem?_eq_getElem ha]
    simp
  · rw [update_of_ne hab, Memory.next]
    cases mem[b]? <;> simp [Ne.symm hab]

@[simp] theorem verb?_setNext : (mem.setNext a next).verb? = mem.verb? := by
  funext b
  rw [verb?, getElem?_setNext, verb?]
  by_cases hab : a = b <;> cases mem[b]? <;> simp [hab]

@[simp] theorem condition?_setNext : (mem.setNext a next).condition? = mem.condition? := by
  funext b
  rw [condition?, getElem?_setNext, condition?]
  by_cases hab : a = b <;> cases mem[b]? <;> simp [hab]

@[simp] theorem next_setVerb {verb : Verb} : (mem.setVerb a verb).next = mem.next := by
  funext b
  rw [Memory.next, getElem?_setVerb, Memory.next]
  by_cases hab : a = b <;> cases mem[b]? <;> simp [hab]

theorem verb?_setVerb (verb : Verb) (ha : a < mem.length) :
    (mem.setVerb a verb).verb? = update mem.verb? a (some verb.fixed) := by
  funext b
  rw [verb?, getElem?_setVerb]
  by_cases hab : b = a
  · subst hab
    rw [getElem?_eq_getElem ha]
    simp
  · rw [update_of_ne hab, verb?]
    cases mem[b]? <;> simp [Ne.symm hab]

theorem condition?_setVerb (verb : Verb) (ha : a < mem.length) :
    (mem.setVerb a verb).condition? = update mem.condition? a verb.condition? := by
  funext b
  rw [condition?, getElem?_setVerb]
  by_cases hab : b = a
  · subst hab
    rw [getElem?_eq_getElem ha]
    simp
  · rw [update_of_ne hab, condition?]
    cases mem[b]? <;> simp [Ne.symm hab]

@[simp] theorem length_setNext : (mem.setNext a next).length = mem.length :=
  length_modify ..

@[simp] theorem length_setVerb {verb : Verb} : (mem.setVerb a verb).length = mem.length :=
  length_modify ..

theorem next_append (act : Activity) (hnext : act.next = none) : Memory.next (mem ++ [act]) = mem.next := by
  funext b
  rw [Memory.next, Memory.next, getElem?_append]
  by_cases hb : b < mem.length
  · rw [if_pos hb]
  · rw [getElem?_eq_none (not_lt.mp hb)]
    cases b - mem.length <;> simp [hnext]

theorem verb?_append (act : Activity) :
    Memory.verb? (mem ++ [act]) = update mem.verb? mem.length (some act.verb.fixed) := by
  funext b
  rw [verb?, getElem?_append]
  by_cases hb : b = mem.length
  · subst hb
    simp
  · rw [update_of_ne hb, verb?]
    by_cases hlt : b < mem.length
    · rw [if_pos hlt]
    · rw [if_neg hlt, getElem?_eq_none (not_lt.mp hlt)]
      obtain ⟨k, rfl⟩ := Nat.exists_eq_add_of_lt (lt_of_le_of_ne (not_lt.mp hlt) (Ne.symm hb))
      rw [Nat.add_assoc, Nat.add_sub_cancel_left]
      rfl

theorem condition?_append (act : Activity) (hcondition : act.verb.condition? = none) :
    Memory.condition? (mem ++ [act]) = mem.condition? := by
  funext b
  rw [condition?, condition?, getElem?_append]
  by_cases hb : b < mem.length
  · rw [if_pos hb]
  · rw [getElem?_eq_none (not_lt.mp hb)]
    cases b - mem.length <;> simp [hcondition]

theorem findTail_spec {length : Nat} {chain tail : Addr} (h : mem.findTail length chain = some tail) :
    Relation.ReflTransGen (fun a b => mem.next a = some b) chain tail ∧ mem.next tail = none := by
  induction length generalizing chain with
  | zero => cases h
  | succ length ih =>
    rw [findTail] at h
    cases hnext : mem.next chain with
    | none =>
      rw [hnext] at h
      cases h
      exact ⟨.refl, hnext⟩
    | some following =>
      rw [hnext] at h
      obtain ⟨hpath, hend⟩ := ih h
      exact ⟨hpath.head hnext, hend⟩

/-! ## The chain of a calculation job -/

theorem next_block (l : Memory) (k : Nat) : Memory.next (mem ++ l) (mem.length + k) = l.next k := by
  rw [Memory.next, getElem?_append_right (Nat.le_add_right _ _), Nat.add_sub_cancel_left]
  rfl

theorem timeWindow?_block (l : Memory) (k : Nat) :
    Memory.timeWindow? (mem ++ l) (mem.length + k) = l.timeWindow? k := by
  rw [timeWindow?, getElem?_append_right (Nat.le_add_right _ _), Nat.add_sub_cancel_left]
  rfl

theorem setNext_block (l : Memory) (k : Nat) (next : Option Addr) :
    Memory.setNext (mem ++ l) (mem.length + k) next = mem ++ l.setNext k next :=
  modifyTailIdx_add _ _ _ _

theorem insert_block (l : Memory) (i k : Nat) :
    Memory.insert (mem ++ l) (mem.length + i) (mem.length + k) =
      mem ++ (l.setNext k (l.next i)).setNext i (some (mem.length + k)) := by
  rw [Memory.insert, next_block, setNext_block, setNext_block]

theorem create_block (l : Memory) (act : Activity) :
    Memory.create (mem ++ l) act = (mem.length + l.length, mem ++ (l ++ [act])) := by
  rw [create, length_append, append_assoc]

/-- The `INVOKE` with two `FEED` records, to be stored from the given address on. -/
def invocation (base : Addr) (job : Job) : List Activity :=
  [⟨.FEED job.w1 job.w2, some (base + 1)⟩,
   ⟨.FEED 0 0, none⟩,
   ⟨.INVOKE job.jobClosure job.nominalTime, some (base + 0)⟩]

/-- Likewise together with the `POST` and the Gate. -/
def gatedInvocation (base : Addr) (job : Job) (start dead : Int) : List Activity :=
  invocation base job ++
    [⟨.POST ⟨start, dead⟩, some (base + 4)⟩, ⟨.GATE ⟨0, dead⟩, some (base + 2)⟩]

/-- All Activities of a calculation job. -/
def jobChain (base : Addr) (job : Job) (start dead : Int) : List Activity :=
  [⟨.FEED job.w1 job.w2, some (base + 1)⟩,
   ⟨.FEED 0 0, some (base + 6)⟩,
   ⟨.INVOKE job.jobClosure job.nominalTime, some (base + 0)⟩,
   ⟨.POST ⟨start, dead⟩, some (base + 4)⟩,
   ⟨.GATE ⟨0, dead⟩, some (base + 5)⟩,
   ⟨.WORKSTART, some (base + 2)⟩,
   ⟨.WORKSTOP, none⟩]

theorem setupInvocation_eq (mem : Memory) (job : Job) :
    mem.setupInvocation job = (mem.length + 2, mem ++ invocation mem.length job) := by
  have hfirst : ∀ act, mem.create act = (mem.length + 0, mem ++ [act]) := fun act => rfl
  simp only [setupInvocation, hfirst, create_block, setNext_block]
  rfl

theorem setupGate_eq (mem : Memory) (job : Job) (start dead : Int) :
    Memory.setupGate
        (mem ++ (invocation mem.length job ++ [⟨.POST ⟨start, dead⟩, some (mem.length + 2)⟩]))
        (mem.length + 3) =
      some (mem.length + 4, mem ++ gatedInvocation mem.length job start dead) := by
  simp only [setupGate, timeWindow?_block, create_block, insert_block]
  rfl

theorem findTail_step (l : Memory) (length k k' : Nat)
    (h : l.next k = some (mem.length + k')) :
    Memory.findTail (mem ++ l) (length + 1) (mem.length + k) =
      Memory.findTail (mem ++ l) length (mem.length + k') := by
  rw [findTail, next_block, h, Option.elim_some]

theorem findTail_end (l : Memory) (length k : Nat) (h : l.next k = none) :
    Memory.findTail (mem ++ l) (length + 1) (mem.length + k) = some (mem.length + k) := by
  rw [findTail, next_block, h, Option.elim_none]

theorem insertWorkBracket_eq (mem : Memory) (job : Job) (start dead : Int) :
    Memory.insertWorkBracket (mem ++ gatedInvocation mem.length job start dead) (mem.length + 4) =
      some (mem ++ jobChain mem.length job start dead) := by
  -- the Activities before the end of processing is marked
  obtain ⟨l, hl⟩ : ∃ l : Memory, l = (gatedInvocation mem.length job start dead).take 4 ++
    [⟨.GATE ⟨0, dead⟩, some (mem.length + 5)⟩, ⟨.WORKSTART, some (mem.length + 2)⟩,
     ⟨.WORKSTOP, none⟩] := ⟨_, rfl⟩
  have htail : Memory.findTail (mem ++ l) (mem ++ l).length (mem.length + 2) =
      some (mem.length + 1) := by
    have hlength : (mem ++ l).length = mem.length + 4 + 1 + 1 + 1 := by
      rw [length_append, hl]
      rfl
    rw [hlength, findTail_step l _ _ 0 (by rw [hl]; rfl), findTail_step l _ _ 1 (by rw [hl]; rfl),
      findTail_end l _ _ (by rw [hl]; rfl)]
  have hnext : Memory.next (mem ++ l) (mem.length + 5) = some (mem.length + 2) := by
    rw [next_block, hl]
    rfl
  have hinsert : Memory.insert (mem ++ l) (mem.length + 1) (mem.length + 6) =
      mem ++ jobChain mem.length job start dead := by
    rw [insert_block, hl]
    rfl
  have hbracket : Memory.insert
      (mem ++ (gatedInvocation mem.length job start dead ++ [⟨.WORKSTART, none⟩] ++
        [⟨.WORKSTOP, none⟩])) (mem.length + 4) (mem.length + 5) = mem ++ l := by
    rw [insert_block, hl]
    rfl
  have hunfold : Memory.insertWorkBracket (mem ++ gatedInvocation mem.length job start dead)
      (mem.length + 4) = (do
        let tail ← Memory.findTail (mem ++ l) (mem ++ l).length
          (← Memory.next (mem ++ l) (mem.length + 5))
        some (Memory.insert (mem ++ l) tail (mem.length + 6))) := by
    rw [← hbracket]
    simp only [insertWorkBracket, create_block]
    rfl
  rw [hunfold, hnext, Option.bind_eq_bind, Option.bind_some, htail]
  exact congrArg some hinsert

theorem setupPost_eq (mem : Memory) (job : Job) (start dead : Int) :
    Memory.setupPost (mem ++ invocation mem.length job) start dead (mem.length + 2) =
      (mem.length + 3, mem ++ (invocation mem.length job ++
        [⟨.POST ⟨start, dead⟩, some (mem.length + 2)⟩])) := by
  rw [setupPost, create_block]
  rfl

/-- What is built for a calculation job. -/
theorem buildCalculationJob_eq (mem : Memory) (job : Job) (start dead : Int) :
    mem.buildCalculationJob job start dead =
      some (⟨mem.length + 2, mem.length + 3, mem.length + 4⟩,
        mem ++ jobChain mem.length job start dead) := by
  simp only [buildCalculationJob, setupInvocation_eq, setupPost_eq, setupGate_eq, insertWorkBracket_eq,
    Option.bind_eq_bind, Option.bind_some]

/-! ## A notification appended -/

/-- The chain of Activities, linked one after the other. -/
def Linked (next : Addr → Option Addr) (a b : Addr) : Prop := next a = some b

theorem lt_of_path (hbounded : ∀ a b, mem.next a = some b → b < mem.length)
    (hpath : Relation.ReflTransGen (Linked mem.next) a b) (ha : a < mem.length) :
    b < mem.length := by
  cases hpath with
  | refl => exact ha
  | tail _ hlink => exact hbounded _ _ hlink

/-- **What a notification changes**: the new Activity is linked to the end of the chain, and the
Gate has to wait for one more prerequisite. -/
structure Appended (mem : Memory) (term targetTerm : Term) (success : Addr) (mem' : Memory) :
    Prop where
  length : mem'.length = mem.length + 1
  address : success = mem.length
  next : ∃ tail, Relation.ReflTransGen (Linked mem.next) term.invoke_ tail ∧ mem.next tail = none ∧
    tail < mem.length ∧ mem'.next = update mem.next tail (some success)
  verb : ∃ timing, mem'.verb? =
    update mem.verb? success (some (.NOTIFY (some targetTerm.gate_) timing))
  condition : ∃ c, mem.condition? targetTerm.gate_ = some c ∧
    mem'.condition? = update mem.condition? targetTerm.gate_ (some c.incDependencies)

/-- Appending a notification. -/
theorem appendNotificationTo_spec {term targetTerm : Term} {unlimitedTime : Bool} {success : Addr}
    {mem' : Memory}
    (h : mem.appendNotificationTo term targetTerm unlimitedTime = some (success, mem'))
    (hbounded : ∀ a b, mem.next a = some b → b < mem.length) (hinvoke : term.invoke_ < mem.length)
    (hgate : mem.verb? targetTerm.gate_ = some (.GATE ⟨0, 0⟩)) :
    Appended mem term targetTerm success mem' := by
  simp only [appendNotificationTo, create, expectNotification, Option.bind_eq_bind,
    Option.bind_eq_some_iff, Option.some.injEq, Prod.mk.injEq] at h
  obtain ⟨tail, htail, _, ⟨c, hc, window, -, rfl⟩, rfl, rfl⟩ := h
  obtain ⟨hpath, hend⟩ := findTail_spec htail
  rw [next_append _ rfl] at hpath hend
  have hlt : tail < mem.length := lt_of_path hbounded hpath hinvoke
  have hlen : (mem ++ [(⟨.NOTIFY none 0, none⟩ : Activity)] : Memory).length = mem.length + 1 := by
    simp
  have hgatelt := lt_of_verb? hgate
  -- the new Activity becomes the end of the chain
  have hlink : Memory.next (Memory.insert (mem ++ [⟨.NOTIFY none 0, none⟩]) tail mem.length) =
      update mem.next tail (some mem.length) := by
    have hnone : mem.next mem.length = none := by
      rw [Memory.next, getElem?_eq_none le_rfl]
      rfl
    rw [Memory.insert, next_setNext (by rw [length_setNext, hlen]; exact Nat.lt_succ_of_lt hlt),
      next_setNext (by rw [hlen]; exact Nat.lt_succ_self _), next_append _ rfl, hend, ← hnone,
      update_eq_self]
  rw [Memory.insert, condition?_setNext, condition?_setNext, condition?_append _ rfl] at hc
  have hverb : Memory.verb? (Memory.insert (mem ++ [⟨.NOTIFY none 0, none⟩]) tail mem.length) =
      update mem.verb? mem.length (some (.NOTIFY none 0)) := by
    rw [Memory.insert, verb?_setNext, verb?_setNext, verb?_append]
    rfl
  have hgateverb : update (update mem.verb? mem.length (some (.NOTIFY none 0)))
      targetTerm.gate_ (some (.GATE ⟨0, 0⟩)) =
      update mem.verb? mem.length (some (.NOTIFY none 0)) := by
    rw [← hgate, update_eq_iff]
    refine ⟨(update_of_ne hgatelt.ne _ _).symm, fun _ _ => rfl⟩
  have hinsert : (Memory.insert (mem ++ [⟨.NOTIFY none 0, none⟩]) tail mem.length).length =
      mem.length + 1 := by
    rw [Memory.insert, length_setNext, length_setNext, hlen]
  constructor
  · rw [length_setVerb, length_setVerb, hinsert]
  · rfl
  · exact ⟨tail, hpath, hend, hlt, by rw [next_setVerb, next_setVerb, hlink]⟩
  · refine ⟨if unlimitedTime then Lib.Time.ANYTIME else window.life, ?_⟩
    rw [verb?_setVerb _ (by rw [length_setVerb, hinsert]; exact Nat.lt_succ_self _),
      verb?_setVerb _ (by rw [hinsert]; exact Nat.lt_succ_of_lt hgatelt), hverb]
    refine (congrArg (update · mem.length _) hgateverb).trans ?_
    rw [update_idem]
    rfl
  · refine ⟨c, hc, ?_⟩
    rw [condition?_setVerb _ (by rw [length_setVerb, hinsert]; exact Nat.lt_succ_self _),
      condition?_setVerb _ (by rw [hinsert]; exact Nat.lt_succ_of_lt hgatelt), Memory.insert,
      condition?_setNext, condition?_setNext, condition?_append _ rfl]
    have hnone : mem.condition? mem.length = none := by
      rw [condition?, getElem?_eq_none le_rfl]
      rfl
    funext b
    by_cases hb : b = mem.length
    · subst hb
      rw [update_self, update_of_ne hgatelt.ne', hnone]
      rfl
    · rw [update_of_ne hb]
      rfl

end Memory

end Lumiera.Vault.Gear
