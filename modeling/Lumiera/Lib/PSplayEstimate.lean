import Lumiera.Lib.PSplayRefinement
import Mathlib.Algebra.Order.Ring.Nat
import Mathlib.Data.Nat.Size

/-! # The estimate of the depth

Along with the number of elements, the splay tree maintains the number of bits of this number, as
the depth of a balanced tree. Adding an element, the estimate is adjusted whenever the next power of
two is reached. Removing one, it is compared with the power of two above, which is not reached
anyway; thus each removal makes the estimate smaller, where only the removals from a power of two
should do so. -/

namespace Lumiera.Lib.Psplay

open SearchTree

variable {ι κ : Type*}

/-! ## Counting -/

/-- **The estimate is right**: it is the number of bits of the element count, and shifting by it is
defined. -/
def EstimateRight (self : PSplay ι) : Prop :=
  self.log2.toNat = self.elem_cnt.size ∧ self.log2.toNat < 64

instance (self : PSplay ι) : Decidable (EstimateRight self) :=
  inferInstanceAs (Decidable (_ ∧ _))

/-- The element count together with the estimate. -/
def counters (self : PSplay ι) : ℕ × UInt32 := (self.elem_cnt, self.log2)

variable {self self' : PSplay ι}

theorem estimateRight_congr (h : counters self = counters self') : EstimateRight self ↔ EstimateRight self' := by
  simp only [counters, Prod.mk.injEq] at h
  simp [EstimateRight, h]

theorem toNat_shift {n : UInt32} (h : n.toNat < 64) : ((1 : UInt64) <<< n.toUInt64).toNat = 2 ^ n.toNat := by
  have hlt : 2 ^ n.toNat < 2 ^ 64 := Nat.pow_lt_pow_right (by decide) h
  simpa [UInt64.toNat_shiftLeft, Nat.mod_eq_of_lt h, Nat.shiftLeft_eq] using hlt

/-- One more element: the estimate stays right up to the width of the counter. -/
theorem estimateRight_countUp (h : EstimateRight self) :
    EstimateRight (countUp self) ↔ self.elem_cnt + 1 < 2 ^ 63 := by
  obtain ⟨hsize, hlt⟩ := h
  have hup : (countUp self).log2.toNat = (self.elem_cnt + 1).size := by
    simp only [countUp, toNat_shift hlt]
    split_ifs with hreached
    · -- the next power of two is reached: one more bit
      have hbits : (self.elem_cnt + 1).size = self.elem_cnt.size + 1 := by
        have hbelow : self.elem_cnt < 2 ^ self.elem_cnt.size := Nat.lt_size_self _
        rw [hsize] at hreached
        have hexact : self.elem_cnt + 1 = 2 ^ self.elem_cnt.size := by omega
        rw [hexact, Nat.size_pow]
      rw [UInt32.toNat_add, UInt32.toNat_one]
      omega
    · rw [hsize] at hreached ⊢
      apply le_antisymm
      · exact Nat.size_le_size (Nat.le_succ _)
      · exact Nat.size_le.mpr (by omega)
  have hwidth : (self.elem_cnt + 1).size < 64 ↔ self.elem_cnt + 1 < 2 ^ 63 := by
    rw [Nat.lt_succ_iff, Nat.size_le]
  simp only [EstimateRight, hup, hwidth]
  simp [countUp]

theorem size_pred_iff {n : ℕ} (hn : 0 < n) : (n - 1).size = n.size - 1 ↔ ∃ k, n = 2 ^ k := by
  obtain ⟨b, hb⟩ : ∃ b, n.size = b + 1 := Nat.exists_eq_succ_of_ne_zero (Nat.size_pos.mpr hn).ne'
  have hlow : 2 ^ b ≤ n := Nat.lt_size.mp (by omega)
  rw [hb, Nat.add_sub_cancel]
  constructor
  · intro h
    have hbelow : n - 1 < 2 ^ b := Nat.size_le.mp h.le
    exact ⟨b, by omega⟩
  · rintro ⟨k, rfl⟩
    obtain rfl : k = b := by
      rw [Nat.size_pow] at hb
      omega
    apply le_antisymm
    · exact Nat.size_le.mpr (by omega)
    · cases k with
      | zero => exact Nat.zero_le _
      | succ k =>
        apply Nat.lt_size.mpr
        omega

/-- One element less: the estimate always becomes smaller, and that is right for a power of two only. -/
theorem estimateRight_countDown (h : EstimateRight self) :
    EstimateRight (countDown self) ↔ ∃ k, self.elem_cnt = 2 ^ k := by
  obtain ⟨hsize, hlt⟩ := h
  have hbelow : self.elem_cnt - 1 < 2 ^ self.log2.toNat := by
    have := Nat.lt_size_self self.elem_cnt
    rw [hsize]
    omega
  have hdown : (countDown self).log2 = self.log2 - 1 := by
    simp only [countDown, toNat_shift hlt, if_pos hbelow]
  rcases Nat.eq_zero_or_pos self.elem_cnt with hzero | hpos
  · -- there is nothing to be removed, and the estimate wraps
    have hlog : self.log2 = 0 := by
      apply UInt32.toNat_inj.mp
      rw [hsize, hzero]
      rfl
    constructor
    · rintro ⟨-, hwidth⟩
      rw [hdown, hlog] at hwidth
      exact absurd hwidth (by decide)
    · rintro ⟨k, hk⟩
      have : 0 < 2 ^ k := Nat.two_pow_pos k
      omega
  · have hlog : 0 < self.log2.toNat := by
      rw [hsize]
      exact Nat.size_pos.mpr hpos
    have hpred : (self.log2 - 1).toNat = self.elem_cnt.size - 1 := by
      rw [← hsize]
      exact UInt32.toNat_sub_of_le _ _ (UInt32.le_iff_toNat_le.mpr hlog)
    have hwidth : self.elem_cnt.size - 1 < 64 := by omega
    rw [← size_pred_iff hpos]
    simp only [EstimateRight, hdown, hpred]
    simp [countDown, hwidth, eq_comm]

theorem counters_countDown (h : counters self = counters self') :
    counters (countDown self) = counters (countDown self') := by
  simp only [counters, Prod.mk.injEq] at h
  simp [counters, countDown, h]

/-! ## What the calls count -/

variable [DecidableEq ι] {cmp : κ → κ → ℤ} {key : ι → κ} {s s' : Session ι} {call : Call ι κ} {fuel : ℕ}
  {prng : ℕ → UInt32} {res : Option ι} {tr : Trail ι} {splayfactor : UInt32}

/-- The tree with the counters adjusted to a call with this result. -/
def counted (self : PSplay ι) (call : Call ι κ) : Option ι → PSplay ι
  | none => self
  | some _ =>
    match call with
    | .insert _ _ => countUp self
    | .remove _ | .removeKey _ => countDown self
    | .init _ | .find _ _ => self

omit [DecidableEq ι] in
@[simp] theorem counted_none : counted self call none = self := rfl

theorem counters_maybeSplay (h : maybeSplay prng self tr splayfactor = some self') :
    counters self' = counters self := by
  unfold maybeSplay psplaySplay at h
  split at h
  · obtain ⟨m, -, hm⟩ := Option.bind_eq_some_iff.mp h
    cases hm
    rfl
  · obtain rfl := Option.some.inj h
    rfl

theorem counters_psplayFind {k : κ} (h : psplayFind cmp key fuel prng self k splayfactor = some (res, self')) :
    counters self' = counters self := by
  obtain ⟨⟨found, tr⟩, -, h⟩ := Option.bind_eq_some_iff.mp h
  cases found with
  | none =>
    obtain ⟨-, rfl⟩ := Prod.mk.inj (Option.some.inj h)
    rfl
  | some node =>
    obtain ⟨found_parent, -, h⟩ := Option.bind_eq_some_iff.mp h
    obtain ⟨splayed, hsplay, h⟩ := Option.bind_eq_some_iff.mp h
    obtain ⟨-, rfl⟩ := Prod.mk.inj (Option.some.inj h)
    exact (counters_maybeSplay hsplay).trans rfl

theorem counters_locate {findFuel : ℕ} {node : ι} {r : Option (Link ι)}
    (h : locate cmp key findFuel prng fuel self node = some (self', r)) : counters self' = counters self := by
  induction fuel generalizing self with
  | zero =>
    unfold locate at h
    split at h
    · obtain ⟨rfl, -⟩ := Prod.mk.inj (Option.some.inj h)
      rfl
    · cases h
  | succ fuel ih =>
    unfold locate at h
    split at h
    · obtain ⟨rfl, -⟩ := Prod.mk.inj (Option.some.inj h)
      rfl
    · obtain ⟨⟨found, self₁⟩, hfind, h⟩ := Option.bind_eq_some_iff.mp h
      have hsame := counters_psplayFind hfind
      cases found with
      | none =>
        obtain ⟨rfl, -⟩ := Prod.mk.inj (Option.some.inj h)
        exact hsame
      | some _ => exact (ih h).trans hsame

/-- Inserting counts the node which is returned. -/
theorem counters_psplayInsert {node : ι}
    (h : psplayInsert cmp key fuel prng self node splayfactor = some (res, self')) :
    counters self' = counters (counted self (.insert node splayfactor : Call ι κ) res) := by
  obtain ⟨⟨trail, m⟩, -, h⟩ := Option.bind_eq_some_iff.mp h
  cases trail with
  | none =>
    obtain ⟨rfl, rfl⟩ := Prod.mk.inj (Option.some.inj h)
    rfl
  | some tr =>
    obtain ⟨splayed, hsplay, h⟩ := Option.bind_eq_some_iff.mp h
    obtain ⟨rfl, rfl⟩ := Prod.mk.inj (Option.some.inj h)
    exact (counters_maybeSplay hsplay).trans rfl

/-- Removing likewise. -/
theorem counters_psplayRemove {node : Option ι} (h : psplayRemove cmp key fuel prng self node = some (res, self')) :
    counters self' = counters (counted self (.remove node : Call ι κ) res) := by
  cases node with
  | none =>
    obtain ⟨rfl, rfl⟩ := Prod.mk.inj (Option.some.inj h)
    rfl
  | some node =>
    obtain ⟨⟨self₁, r⟩, hlocate, h⟩ := Option.bind_eq_some_iff.mp h
    have hsame := counters_locate hlocate
    cases r with
    | none =>
      obtain ⟨rfl, rfl⟩ := Prod.mk.inj (Option.some.inj h)
      exact hsame
    | some r =>
      obtain ⟨m, -, h⟩ := Option.bind_eq_some_iff.mp h
      obtain ⟨rfl, rfl⟩ := Prod.mk.inj (Option.some.inj h)
      exact counters_countDown hsame

/-- All calls: the counters go up or down with the node which is returned, and stay otherwise. -/
theorem counters_perform (h : perform cmp key fuel prng self call = some (res, self')) :
    counters self' = counters (counted self call res) := by
  cases call with
  | init node =>
    obtain ⟨rfl, rfl⟩ := Prod.mk.inj (Option.some.inj h)
    rfl
  | insert node splayfactor => exact counters_psplayInsert h
  | find k splayfactor =>
    have hcounted : counted self (.find k splayfactor : Call ι κ) res = self := by cases res <;> rfl
    rw [hcounted]
    exact counters_psplayFind h
  | remove node => exact counters_psplayRemove h
  | removeKey k =>
    obtain ⟨⟨node, self₁⟩, hfind, h⟩ := Option.bind_eq_some_iff.mp h
    have hsame := counters_psplayFind hfind
    rw [counters_psplayRemove h]
    cases res with
    | none => exact hsame
    | some x => exact counters_countDown hsame

/-! ## Sessions -/

section Sessions

variable (cmp : κ → κ → ℤ) (key : ι → κ)

/-- The call adds a node: no node in the tree has its key. -/
def Call.Adds (s : Session ι) : Call ι κ → Prop
  | .insert node _ => ∀ y ∈ s.members, cmp (key node) (key y) ≠ 0
  | _ => False

/-- The call takes a node out. -/
def Call.TakesOut (s : Session ι) : Call ι κ → Prop
  | .remove (some x) => x ∈ s.members
  | .removeKey k => ∃ x ∈ s.members, cmp k (key x) = 0
  | _ => False

/-- **Where the estimate stays right**: nodes are added while the width of the counter allows for
it, and taken out only while their number is a power of two. -/
def KeepsEstimate (s : Session ι) (a : Call ι κ × ℕ × (ℕ → UInt32) × Option ι) : Prop :=
  (a.1.Adds cmp key s → s.splay.elem_cnt + 1 < 2 ^ 63) ∧
    (a.1.TakesOut cmp key s → ∃ k, s.splay.elem_cnt = 2 ^ k)

end Sessions

theorem estimateRight_psplayInit (m : LinkMemory ι) : EstimateRight (psplayInit m) := by
  simp [EstimateRight, psplayInit]

/-- A node is returned by the calls which add or take out a node, and by no other one of these. -/
theorem estimateRight_counted_iff (hright : EstimateRight s.splay)
    (hserved : Served cmp key fuel prng s s' res call) :
    EstimateRight (counted s.splay call res) ↔ KeepsEstimate cmp key s (call, fuel, prng, res) := by
  cases call with
  | init node =>
    have hcounted : counted s.splay (.init node : Call ι κ) res = s.splay := by cases res <;> rfl
    simp [hcounted, hright, KeepsEstimate, Call.Adds, Call.TakesOut]
  | find k splayfactor =>
    have hcounted : counted s.splay (.find k splayfactor : Call ι κ) res = s.splay := by cases res <;> rfl
    simp [hcounted, hright, KeepsEstimate, Call.Adds, Call.TakesOut]
  | insert node splayfactor =>
    obtain ⟨hduplicate, hnew⟩ := hserved
    by_cases hadds : ∀ y ∈ s.members, cmp (key node) (key y) ≠ 0
    · have hcall : Call.Adds cmp key s (.insert node splayfactor : Call ι κ) := hadds
      rw [hnew hadds, counted, estimateRight_countUp hright]
      simp [KeepsEstimate, Call.TakesOut, hcall]
    · have hcall : ¬ Call.Adds cmp key s (.insert node splayfactor : Call ι κ) := hadds
      have hpresent : ∃ y ∈ s.members, cmp (key node) (key y) = 0 := by simpa using hadds
      simp [(hduplicate hpresent).1, KeepsEstimate, Call.TakesOut, hcall, hright]
  | remove node =>
    obtain ⟨hpresent, habsent⟩ := hserved
    by_cases htakes : ∃ x ∈ s.members, node = some x
    · obtain ⟨x, hx, rfl⟩ := htakes
      rw [(hpresent x hx rfl).1, counted, estimateRight_countDown hright]
      simp [KeepsEstimate, Call.Adds, Call.TakesOut, hx]
    · have hnone : res = none := habsent fun x hx heq => htakes ⟨x, hx, heq⟩
      have hnot : ¬ Call.TakesOut cmp key s (.remove node) := by
        cases node with
        | none => exact id
        | some x => exact fun hx => htakes ⟨x, hx, rfl⟩
      simp [hnone, KeepsEstimate, Call.Adds, hnot, hright]
  | removeKey k =>
    cases res with
    | some x =>
      have hx := (hserved x).mp rfl
      have htakes : Call.TakesOut cmp key s (.removeKey k : Call ι κ) := ⟨x, hx⟩
      rw [counted, estimateRight_countDown hright]
      simp [KeepsEstimate, Call.Adds, htakes]
    | none =>
      have hnot : ¬ Call.TakesOut cmp key s (.removeKey k : Call ι κ) := by
        rintro ⟨x, hx⟩
        exact absurd ((hserved x).mpr hx) (by simp)
      simp [KeepsEstimate, Call.Adds, hnot, hright]

/-- A step keeps the estimate right just in case it meets the condition. -/
theorem Kept.estimateRight_iff (hcmp : TotalOrder cmp) (hkept : Kept cmp key s) (hright : EstimateRight s.splay)
    {a : Call ι κ × ℕ × (ℕ → UInt32) × Option ι} (hstep : (sessions cmp key).step s a s') : EstimateRight s'.splay ↔
    KeepsEstimate cmp key s a := by
  obtain ⟨hallowed, hrun, hmembers⟩ := hstep
  have hserved := (hkept.step hcmp hallowed hrun hmembers).2
  rw [estimateRight_congr (counters_perform hrun)]
  exact estimateRight_counted_iff hright hserved

/-- **The estimate is right throughout a session** where each step meets the condition; and it is wrong
after the first step which does not. -/
theorem estimate_kept_iff (hcmp : TotalOrder cmp)
    (hs : ((sessions cmp key).restrict (KeepsEstimate cmp key)).Reachable s) : EstimateRight s.splay ∧ ∀ a s',
    (sessions cmp key).step s a s' → (EstimateRight s'.splay ↔ KeepsEstimate cmp key s a) := by
  have hinvariant : ((sessions cmp key).restrict (KeepsEstimate cmp key)).Invariant fun s =>
      Kept cmp key s ∧ EstimateRight s.splay := by
    refine ⟨fun s hinit => ⟨(invariant_kept hcmp).init s hinit, ?_⟩, fun s a t hs hstep => ⟨?_, ?_⟩⟩
    · obtain ⟨m, rfl⟩ := hinit
      exact estimateRight_psplayInit m
    · exact (invariant_kept hcmp).step s a t hs.1 hstep.2
    · exact (hs.1.estimateRight_iff hcmp hs.2 hstep.2).mpr hstep.1
  obtain ⟨hkept, hright⟩ := hinvariant.reachable hs
  exact ⟨hright, fun a s' hstep => hkept.estimateRight_iff hcmp hright hstep⟩

/-! ## One node, and three nodes -/

/-- Sessions where the nodes are numbers, and are their own keys. -/
abbrev numbers : Machine (Session ℕ) (Call ℕ ℤ × ℕ × (ℕ → UInt32) × Option ℕ) :=
  sessions (fun a b => a - b) fun n => n

/-- A node is inserted into the empty tree. -/
theorem estimate_kept_single :
    ∃ s : Session ℕ, s.members = {1} ∧ EstimateRight s.splay ∧
      ∀ a s', numbers.step s a s' →
        (EstimateRight s'.splay ↔ KeepsEstimate (fun a b : ℤ => a - b) (fun n : ℕ => (n : ℤ)) s a) := by
  have hempty : (numbers.restrict (KeepsEstimate (fun a b : ℤ => a - b) fun n : ℕ => (n : ℤ))).Reachable
      ⟨psplayInit fun _ => none, ∅⟩ :=
    Machine.Reachable.of_init ⟨_, rfl⟩
  have hsingle : (numbers.restrict (KeepsEstimate (fun a b : ℤ => a - b) fun n : ℕ => (n : ℤ))).Reachable
      ⟨countUp { psplayInit (fun _ => none) with
        memory := Function.update (psplayInit fun _ => none).memory .root (some 1) }, {1}⟩ := by
    apply hempty.step (a := (.insert 1 0, 0, fun _ => 0, some 1))
    exact ⟨⟨fun _ => by decide, nofun⟩, ⟨by decide, fun d => by cases d <;> rfl⟩, rfl, rfl⟩
  exact ⟨_, rfl, estimate_kept_iff totalOrder_sub hsingle⟩

instance (s : Session ι) : (call : Call ι κ) → Decidable (call.Allowed s)
  | .init node => inferInstanceAs (Decidable (node ∉ s.members))
  | .insert node _ =>
    decidable_of_iff (node ∉ s.members ∧ s.splay.memory (.child node .left) = none ∧
        s.splay.memory (.child node .right) = none)
      (and_congr_right fun _ =>
        ⟨fun h d => by cases d; exacts [h.1, h.2], fun h => ⟨h .left, h .right⟩⟩)
  | .find _ _ | .remove _ | .removeKey _ => .isTrue trivial

/-- A step of a session, computed. -/
def Session.next (cmp : κ → κ → ℤ) (key : ι → κ) (fuel : ℕ) (prng : ℕ → UInt32) (s : Session ι)
    (call : Call ι κ) : Option (Session ι) :=
  if call.Allowed s then
    (perform cmp key fuel prng s.splay call).map fun out => ⟨out.2, account s.members call out.1⟩
  else none

theorem reachable_of_next {calls : List (Call ι κ)} (hs : (sessions cmp key).Reachable s)
    (h : Machine.exec (Session.next cmp key fuel prng) s calls = some s') : (sessions cmp key).Reachable s' := by
  induction calls generalizing s with
  | nil => exact Option.some.inj h ▸ hs
  | cons call calls ih =>
    obtain ⟨t, hnext, hrest⟩ := Option.bind_eq_some_iff.mp h
    apply ih _ hrest
    unfold Session.next at hnext
    split at hnext
    · next hallowed =>
        obtain ⟨⟨res, splay⟩, hrun, rfl⟩ := Option.map_eq_some_iff.mp hnext
        exact hs.step (a := (call, fuel, prng, res)) ⟨hallowed, hrun, rfl⟩
    · cases hnext

/-- **Three nodes** are inserted and removed again: the estimate wraps. -/
theorem estimate_wraps : ∃ s : Session ℕ, numbers.Reachable s ∧ s.splay.elem_cnt = 0 ∧
    s.splay.log2.toNat = 2 ^ 32 - 1 ∧ ¬ EstimateRight s.splay := by
  have hempty : numbers.Reachable ⟨psplayInit fun _ => none, ∅⟩ :=
    Machine.Reachable.of_init ⟨_, rfl⟩
  have hrun : ((Machine.exec (Session.next (fun a b : ℤ => a - b) (fun n : ℕ => n) 3 fun _ => 0)
      ⟨psplayInit fun _ => none, ∅⟩
      [.insert 1 0, .insert 2 0, .insert 3 0, .remove (some 3), .remove (some 2), .remove (some 1)]).any
        fun s => s.splay.elem_cnt == 0 && s.splay.log2.toNat == 2 ^ 32 - 1) = true := by
    decide +kernel
  obtain ⟨s, hs, hwrapped⟩ := (Option.any_eq_true _ _).mp hrun
  rw [Bool.and_eq_true, beq_iff_eq, beq_iff_eq] at hwrapped
  refine ⟨s, reachable_of_next hempty hs, hwrapped.1, hwrapped.2, ?_⟩
  rintro ⟨-, hwidth⟩
  omega

end Lumiera.Lib.Psplay
