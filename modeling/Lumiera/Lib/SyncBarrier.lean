import Lumiera.Base.Machine
import Mathlib.Algebra.Order.Ring.Nat
import Mathlib.Data.Finset.Card

/-! # Mutual synchronisation (`lib/sync-barrier.hpp`)

Each call to `sync` counts down the latch, and then waits until the latch is down to zero; the last
participant expected does not wait, and sets the latch to zero instead. There can be more calls
than expected, at any time, and their atomic operations are interleaved with the ones of the other
calls, in particular between the last count and the store of zero. -/

namespace Lumiera.Lib.SyncBarrier

variable {Call : Type*}

/-! ## The latch -/

/-- Where a call to `sync` has got to. -/
inductive Phase
  /-- not called yet, or before `fetch_add` -/
  | called
  /-- in the loop, before `load` -/
  | waiting
  /-- before `store` -/
  | releasing
  | returned
  deriving DecidableEq, Repr

/-- The barrier, and the calls to it. -/
structure State (Call : Type*) where
  latch_ : Int32
  phase : Call → Phase
  /-- Which calls have counted down the latch. -/
  arrived : Finset Call

/-- The atomic operations. -/
inductive Action (Call : Type*)
  | fetchAdd (call : Call)
  | load (call : Call)
  | store (call : Call)

/-- The call which performs the operation. -/
def Action.caller : Action Call → Call
  | .fetchAdd call | .load call | .store call => call

/-- `int` converted to `size_t`, with sign extension. -/
def sizeOfInt (n : Int32) : UInt64 := n.toInt64.toUInt64

variable [DecidableEq Call]

/-- `latch_.fetch_add(-1)`, and the decision on the level found. -/
def fetchAdd (s : State Call) (call : Call) : State Call :=
  let level := sizeOfInt s.latch_
  { latch_ := s.latch_ + (-1)
    phase := Function.update s.phase call (if 1 < level then .waiting else .releasing)
    arrived := insert call s.arrived }

/-- `latch_.load()` in the condition of the loop. -/
def load (s : State Call) (call : Call) : State Call :=
  { s with phase := Function.update s.phase call (if 0 < s.latch_ then .waiting else .returned) }

/-- `latch_.store(0)` -/
def store (s : State Call) (call : Call) : State Call :=
  { s with latch_ := 0, phase := Function.update s.phase call .returned }

/-- `sync`, one operation after the other. -/
def sync (s : State Call) : Action Call → Option (State Call)
  | .fetchAdd call => if s.phase call = .called then some (fetchAdd s call) else none
  | .load call => if s.phase call = .waiting then some (load s call) else none
  | .store call => if s.phase call = .releasing then some (store s call) else none

/-- A new barrier. The constructor requires at least two participants, and ensures that there are less
than 100'000. -/
def construct (nFold : UInt32) : State Call where
  latch_ := nFold.toInt32
  phase _ := .called
  arrived := ∅

/-- **All interleavings** of any number of calls. -/
def barrier (Call : Type*) [DecidableEq Call] (nFold : UInt32) : Machine (State Call) (Action Call) :=
  Machine.ofFun (construct nFold) sync

/-! ## Integers -/

theorem one_lt_sizeOfInt_iff {n : Int32} : 1 < sizeOfInt n ↔ n.toInt < 0 ∨ 1 < n.toInt := by
  have hint : (sizeOfInt n).toBitVec.toInt = n.toInt := Int32.toInt_toInt64 n
  rw [BitVec.toInt_eq_toNat_cond, UInt64.toNat_toBitVec] at hint
  rw [UInt64.lt_iff_toNat_lt, UInt64.toNat_one]
  have hhigh := (sizeOfInt n).toNat_lt
  split_ifs at hint with hsign <;> omega

theorem toInt_countDown {n : Int32} (h : -2 ^ 31 < n.toInt) : (n + (-1)).toInt = n.toInt - 1 := by
  have hhigh := n.toInt_lt
  simp [Int.bmod_def]
  omega

theorem toInt_toInt32 {n : UInt32} (h : n.toNat < 2 ^ 31) : n.toInt32.toInt = n.toNat := by
  change n.toBitVec.toInt = n.toNat
  rw [BitVec.toInt_eq_toNat_of_lt]
  · simp
  · simp
    omega

/-! ## The invariant -/

variable {nFold : UInt32} {n : ℕ} {s t : State Call} {c : Call} {a : Action Call}

/-- **The latch counts the participants missing**, and nobody has passed; from the last one on it is not
positive any more, and not lower than it is counted down by the surplus calls. -/
structure Inv (n : ℕ) (s : State Call) : Prop where
  arrived_iff : ∀ c, c ∈ s.arrived ↔ s.phase c ≠ .called
  counting : s.arrived.card < n → s.latch_.toInt = n - s.arrived.card
  blocked : s.arrived.card < n → ∀ c, s.phase c = .called ∨ s.phase c = .waiting
  open_ : n ≤ s.arrived.card → s.latch_.toInt ≤ 0 ∧ n - s.arrived.card ≤ s.latch_.toInt

omit [DecidableEq Call] in
theorem inv_construct (h : nFold.toNat < 2 ^ 31) : Inv nFold.toNat (construct nFold : State Call) where
  arrived_iff c := by simp [construct]
  counting _ := by simp [construct, toInt_toInt32 h]
  blocked _ c := by simp [construct]
  open_ hzero := by
    have : nFold.toNat = 0 := by simpa [construct] using hzero
    simp [construct, toInt_toInt32 h, this]

/-- Counting down, with less than 2³¹ calls so far. -/
theorem Inv.fetchAdd (h : Inv n s) (hcalled : s.phase c = .called) (hcard : s.arrived.card + 1 < 2 ^ 31)
    (hn : n < 2 ^ 31) : Inv n (fetchAdd s c) := by
  have hnew : c ∉ s.arrived := by simp [h.arrived_iff, hcalled]
  have hcount : (insert c s.arrived).card = s.arrived.card + 1 := Finset.card_insert_of_notMem hnew
  have hlow : -2 ^ 31 < s.latch_.toInt := by
    rcases Nat.lt_or_ge s.arrived.card n with hlt | hge
    · have := h.counting hlt
      omega
    · have := h.open_ hge
      omega
  refine ⟨fun d => ?_, fun hlt => ?_, fun hlt d => ?_, fun hge => ?_⟩
  · by_cases hd : d = c
    · subst hd
      simp only [SyncBarrier.fetchAdd]
      split_ifs <;> simp
    · simp [SyncBarrier.fetchAdd, hd, h.arrived_iff]
  · simp only [SyncBarrier.fetchAdd] at hlt ⊢
    rw [toInt_countDown hlow, h.counting (by omega)]
    omega
  · simp only [SyncBarrier.fetchAdd] at hlt ⊢
    by_cases hd : d = c
    · subst hd
      -- others are missing still, so the level found is greater than one
      have hlevel : 1 < sizeOfInt s.latch_ := by
        rw [one_lt_sizeOfInt_iff, h.counting (by omega)]
        omega
      simp [hlevel]
    · rw [Function.update_of_ne hd]
      exact h.blocked (by omega) d
  · simp only [SyncBarrier.fetchAdd] at hge ⊢
    rw [toInt_countDown hlow]
    rcases Nat.lt_or_ge s.arrived.card n with hlt | hge
    · have := h.counting hlt
      omega
    · have := h.open_ hge
      omega

theorem Inv.load (h : Inv n s) (hwaiting : s.phase c = .waiting) : Inv n (load s c) := by
  refine ⟨fun d => ?_, h.counting, fun hlt d => ?_, h.open_⟩
  · by_cases hd : d = c
    · subst hd
      simp only [SyncBarrier.load, h.arrived_iff, hwaiting]
      split_ifs <;> simp
    · simp [SyncBarrier.load, hd, h.arrived_iff]
  · have hpositive : 0 < s.latch_ := by
      rw [Int32.lt_iff_toInt_lt, Int32.toInt_zero, h.counting hlt]
      have : s.arrived.card < n := hlt
      omega
    by_cases hd : d = c
    · subst hd
      simp [SyncBarrier.load, hpositive]
    · simpa [SyncBarrier.load, hd] using h.blocked hlt d

theorem Inv.store (h : Inv n s) (hreleasing : s.phase c = .releasing) : Inv n (store s c) := by
  have hge : n ≤ s.arrived.card := by
    by_contra hlt
    rcases h.blocked (Nat.lt_of_not_le hlt) c with hphase | hphase
    · simp [hreleasing] at hphase
    · simp [hreleasing] at hphase
  refine ⟨fun d => ?_, fun hlt => ?_, fun hlt => ?_, fun _ => ?_⟩
  · by_cases hd : d = c
    · subst hd
      simp [SyncBarrier.store, h.arrived_iff, hreleasing]
    · simp [SyncBarrier.store, hd, h.arrived_iff]
  · exact absurd hge (Nat.not_le_of_lt hlt)
  · exact absurd hge (Nat.not_le_of_lt hlt)
  · simp only [SyncBarrier.store, Int32.toInt_zero]
    omega

/-- What a step is: the operation which is due for the call. -/
theorem sync_eq_some (h : sync s a = some t) : (∃ c, a = .fetchAdd c ∧ s.phase c = .called ∧ t = fetchAdd s c) ∨
    (∃ c, a = .load c ∧ s.phase c = .waiting ∧ t = load s c) ∨ ∃ c, a = .store c ∧ s.phase c = .releasing ∧
    t = store s c := by
  cases a with
  | fetchAdd c =>
    obtain ⟨hphase, hstep⟩ := Option.ite_none_right_eq_some.mp h
    exact Or.inl ⟨c, rfl, hphase, (Option.some.inj hstep).symm⟩
  | load c =>
    obtain ⟨hphase, hstep⟩ := Option.ite_none_right_eq_some.mp h
    exact Or.inr (Or.inl ⟨c, rfl, hphase, (Option.some.inj hstep).symm⟩)
  | store c =>
    obtain ⟨hphase, hstep⟩ := Option.ite_none_right_eq_some.mp h
    exact Or.inr (Or.inr ⟨c, rfl, hphase, (Option.some.inj hstep).symm⟩)

theorem arrived_subset (h : sync s a = some t) : s.arrived ⊆ t.arrived := by
  obtain ⟨c, -, -, rfl⟩ | ⟨c, -, -, rfl⟩ | ⟨c, -, -, rfl⟩ := sync_eq_some h
  · exact Finset.subset_insert c s.arrived
  · exact Finset.Subset.refl _
  · exact Finset.Subset.refl _

/-- Each step keeps the invariant, as long as there are less than 2³¹ calls. -/
theorem Inv.step (h : Inv n s) (hn : n < 2 ^ 31) (hstep : sync s a = some t) (hcard : t.arrived.card < 2 ^ 31) :
    Inv n t := by
  obtain ⟨c, -, hphase, rfl⟩ | ⟨c, -, hphase, rfl⟩ | ⟨c, -, hphase, rfl⟩ := sync_eq_some hstep
  · apply h.fetchAdd hphase _ hn
    have hnew : c ∉ s.arrived := by simp [h.arrived_iff, hphase]
    simpa [SyncBarrier.fetchAdd, Finset.card_insert_of_notMem hnew] using hcard
  · exact h.load hphase
  · exact h.store hphase

theorem invariant_kept (hn : nFold.toNat < 2 ^ 31) :
    (barrier Call nFold).Invariant fun s => s.arrived.card < 2 ^ 31 → Inv nFold.toNat s where
  init := by
    rintro s rfl -
    exact inv_construct hn
  step := by
    intro s a t hs hstep hcard
    have hle := Finset.card_le_card (arrived_subset hstep)
    exact (hs (by omega)).step hn hstep hcard

/-! ## Synchronisation -/

/-- A call is between its count and its return. -/
def State.Inside (s : State Call) (c : Call) : Prop := s.phase c = .waiting ∨ s.phase c = .releasing

theorem returns_of_latch_le_zero (hlatch : s.latch_.toInt ≤ 0) (hc : s.Inside c) :
    (∃ a t, a.caller = c ∧ sync s a = some t) ∧ ∀ a t, a.caller = c → sync s a = some t → t.phase c = .returned := by
  have hzero : ¬ 0 < s.latch_ := by
    rw [Int32.lt_iff_toInt_lt, Int32.toInt_zero]
    omega
  constructor
  · rcases hc with hphase | hphase
    · exact ⟨.load c, load s c, rfl, by simp [sync, hphase]⟩
    · exact ⟨.store c, store s c, rfl, by simp [sync, hphase]⟩
  · rintro a t rfl hstep
    obtain ⟨c, rfl, hphase, -⟩ | ⟨c, rfl, -, rfl⟩ | ⟨c, rfl, -, rfl⟩ := sync_eq_some hstep
    · rcases hc with hother | hother
      · simp [Action.caller, hphase] at hother
      · simp [Action.caller, hphase] at hother
    · simp [load, Action.caller, hzero]
    · simp [store, Action.caller]

/-- **The barrier synchronises**: no call returns before all the participants have counted down; and
from there on the latch is not positive, whatever happens, so that each call can return. -/
theorem synchronises (hn : nFold.toNat < 2 ^ 31) (hs : (barrier Call nFold).Reachable s)
    (hcard : s.arrived.card < 2 ^ 31) :
    ((∃ c, s.phase c = .returned) → nFold.toNat ≤ s.arrived.card) ∧
      (nFold.toNat ≤ s.arrived.card → ∀ as t, (barrier Call nFold).Run s as t → t.arrived.card < 2 ^ 31 →
        t.latch_.toInt ≤ 0 ∧ ∀ c, t.Inside c →
          (∃ a u, a.caller = c ∧ (barrier Call nFold).step t a u) ∧
            ∀ a u, a.caller = c → (barrier Call nFold).step t a u → u.phase c = .returned) := by
  have hinvariant : (barrier Call nFold).Invariant _ := invariant_kept hn
  constructor
  · rintro ⟨c, hc⟩
    by_contra hlt
    rcases (hinvariant.reachable hs hcard).blocked (Nat.lt_of_not_le hlt) c with hphase | hphase
    · simp [hc] at hphase
    · simp [hc] at hphase
  · intro hge as t hrun hlimit
    have hsubset : s.arrived ⊆ t.arrived :=
      hrun.keeps (P := fun t => s.arrived ⊆ t.arrived) (fun _ _ _ hu hstep => hu.trans (arrived_subset hstep))
        (Finset.Subset.refl _)
    have hopen := (hinvariant.reachable (hs.run hrun) hlimit).open_ (hge.trans (Finset.card_le_card hsubset))
    exact ⟨hopen.1, fun c hc => returns_of_latch_le_zero hopen.1 hc⟩

/-- Two participants, and a surplus call before the latch is set to zero. -/
theorem synchronises_surplus : ∃ s : State (Fin 3), (barrier (Fin 3) 2).Reachable s ∧ s.arrived.card = 3 ∧
    ∀ as t, (barrier (Fin 3) 2).Run s as t → t.arrived.card < 2 ^ 31 → t.latch_.toInt ≤ 0 := by
  obtain ⟨s, hs, harrived⟩ := Machine.exists_reachable_of_exec sync (construct 2)
    [.fetchAdd (0 : Fin 3), .load 0, .fetchAdd 1, .fetchAdd 2] (fun s => s.arrived.card == 3) (by decide)
  have hcard : s.arrived.card = 3 := by simpa using harrived
  refine ⟨s, hs, hcard, fun as t hrun hlimit => ?_⟩
  have hsync := synchronises (by decide) hs (by omega)
  exact ((hsync.2 (by rw [hcard]; decide)) as t hrun hlimit).1

end Lumiera.Lib.SyncBarrier
