import Mathlib.Data.List.Perm.Basic
import Mathlib.Tactic.Ring
import Lumiera.Base.LinkedChains
import Lumiera.Vault.Gear.TermBuilder

/-! # The chains built for several Terms (`vault/gear/activity-term.hpp`)

What was built for a Term is described by a **layout**: the triggers for direct activation behind
the `POST`, the Gate, the fixed sequence for the kind of job, and the outgoing notifications. The
chains of all Terms have no Activity in common; each builder operation splices new Activities into
one of them. -/

namespace Lumiera.Vault.Gear.TermBuilder

open List

open LinkedUp (spliced)

/-! ## Access to memory -/

section Access

variable {mem : Memory} {a b t : Addr}

theorem lt_of_tag? {k : Tag} (h : tag? mem a = some k) : a < mem.length := by
  obtain ⟨act, hact, -⟩ := Option.map_eq_some_iff.mp h
  exact (List.getElem?_eq_some_iff.mp hact).1

theorem condition?_eq_none (h : tag? mem a ≠ some .GATE) : mem.condition? a = none := by
  rw [Memory.condition?]
  cases hact : mem[a]? with
  | none => rfl
  | some act =>
    obtain ⟨verb, next⟩ := act
    rw [tag?, hact] at h
    cases verb <;> first | rfl | exact absurd rfl h

theorem exists_timeWindow (h : tag? mem a = some .POST) : ∃ w, mem.timeWindow? a = some w := by
  obtain ⟨⟨verb, next⟩, hact, htag⟩ := Option.map_eq_some_iff.mp h
  cases verb <;> cases htag
  exact ⟨_, by rw [Memory.timeWindow?, hact]; rfl⟩

@[simp] theorem tag?_setNext {next : Option Addr} : tag? (mem.setNext a next) = tag? mem := by
  funext b
  rw [tag?, Memory.getElem?_setNext, tag?]
  by_cases hab : a = b <;> cases mem[b]? <;> simp [hab]

theorem tag?_setVerb {verb : Verb} (h : tag? mem a = some (tag verb)) : tag? (mem.setVerb a verb) = tag? mem := by
  funext b
  by_cases hab : a = b
  · subst hab
    rw [h, tag?, Memory.getElem?_setVerb, getElem?_eq_getElem (lt_of_tag? h)]
    simp
  · rw [tag?, Memory.getElem?_setVerb, tag?]
    cases mem[b]? <;> simp [hab]

theorem tag?_append_left {l : Memory} (ha : a < mem.length) : tag? (mem ++ l) a = tag? mem a := by
  rw [tag?, getElem?_append_left ha, tag?]

theorem tag?_block (l : Memory) (k : ℕ) : tag? (mem ++ l) (mem.length + k) = tag? l k := by
  rw [tag?, getElem?_append_right (Nat.le_add_right _ _), Nat.add_sub_cancel_left, tag?]

theorem condition?_append_left {l : Memory} (ha : a < mem.length) :
    Memory.condition? (mem ++ l) a = mem.condition? a := by
  rw [Memory.condition?, getElem?_append_left ha, Memory.condition?]

theorem condition?_block (l : Memory) (k : ℕ) :
    Memory.condition? (mem ++ l) (mem.length + k) = Memory.condition? l k := by
  rw [Memory.condition?, getElem?_append_right (Nat.le_add_right _ _), Nat.add_sub_cancel_left,
    Memory.condition?]

/-- Inserting into a chain. -/
theorem next_insert (ha : a < mem.length) (ht : t < mem.length) : (mem.insert a t).next = spliced mem.next a t := by
  have ha' : a < (mem.setNext t (mem.next a)).length := by rwa [Memory.length_setNext]
  rw [Memory.insert, Memory.next_setNext ha', Memory.next_setNext ht, spliced]

@[simp] theorem tag?_insert : tag? (mem.insert a t) = tag? mem := by
  rw [Memory.insert, tag?_setNext, tag?_setNext]

@[simp] theorem condition?_insert : (mem.insert a t).condition? = mem.condition? := by
  rw [Memory.insert, Memory.condition?_setNext, Memory.condition?_setNext]

/-- The end of a chain is found, when the search goes on long enough. -/
theorem findTail_eq {l : List Addr} (h : LinkedUp mem.next (a :: l)) {length : ℕ} (hlength : l.length < length) :
    ∃ init tail, a :: l = init ++ [tail] ∧ mem.findTail length a = some tail := by
  induction l generalizing a length with
  | nil =>
    obtain ⟨n, rfl⟩ := Nat.exists_eq_add_one.mpr hlength
    refine ⟨[], a, rfl, ?_⟩
    have hend : mem.next a = none := h.1
    rw [Memory.findTail, hend, Option.elim_none]
  | cons b l ih =>
    obtain ⟨n, rfl⟩ := Nat.exists_eq_add_one.mpr (Nat.zero_lt_of_lt hlength)
    obtain ⟨init, tail, heq, hfind⟩ := ih h.2 (Nat.lt_of_succ_lt_succ hlength)
    refine ⟨a :: init, tail, by rw [heq, cons_append], ?_⟩
    have hnext : mem.next a = some b := h.1
    rw [Memory.findTail, hnext, Option.elim_some, hfind]

end Access

/-! ## Layout -/

/-- The sequence from the start of work to the end of the main chain. -/
def bodyTags : Template → List Tag
  | .CALC_JOB => [.WORKSTART, .INVOKE, .FEED, .FEED, .WORKSTOP]
  | .LOAD_JOB => [.WORKSTART, .INVOKE, .FEED, .FEED]
  | .META_JOB => [.INVOKE, .FEED, .FEED]

/-- The sequence started by the callback. -/
def asyncTags : Template → List Tag
  | .LOAD_JOB => [.WORKSTOP]
  | _ => []

/-- **What was built for a Term.** -/
structure Layout where
  kind : Template
  term : Term
  /-- The number of notifications expected from other Terms. -/
  expected : ℕ := 0
  triggers : List Addr := []
  body : List Addr
  async : List Addr := []
  outgoing : List Addr := []

namespace Layout

/-- The chain starting with the `POST`, without the outgoing notifications. -/
def main (b : Layout) : List Addr := b.term.post_ :: (b.triggers ++ (b.term.gate_.toList ++ b.body))

/-- The chains of a Term; the outgoing notifications are at the end of the last one. -/
def chains (b : Layout) : List (List Addr) :=
  match b.async with
  | [] => [b.main ++ b.outgoing]
  | callback :: rest => [b.main, callback :: rest ++ b.outgoing]

/-- The record of the builder calls. -/
def calls (b : Layout) : Calls := ⟨b.kind, b.expected, b.triggers, b.outgoing⟩

/-- The Gate is passed after the notifications expected and the triggers; it is present in any case
for a calculation job. -/
def GateCounts (mem : Memory) (b : Layout) : Prop :=
  match b.term.gate_ with
  | some gate => tag? mem gate = some .GATE ∧ ∃ c, mem.condition? gate = some c ∧
    c.rest = b.expected + b.triggers.length
  | none => b.kind ≠ .CALC_JOB ∧ b.expected = 0 ∧ b.triggers = []

/-- **The Activities in memory are those of the layout.** -/
structure Valid (mem : Memory) (b : Layout) : Prop where
  post : tag? mem b.term.post_ = some .POST
  gate : b.GateCounts mem
  body : b.body.map (tag? mem) = (bodyTags b.kind).map some
  async : b.async.map (tag? mem) = (asyncTags b.kind).map some
  invoke : b.term.invoke_ ∈ b.body ∧ tag? mem b.term.invoke_ = some .INVOKE
  callback : b.term.callback_ = b.async.head?
  triggers : ∀ a ∈ b.triggers, tag? mem a = some .NOTIFY
  outgoing : ∀ a ∈ b.outgoing, tag? mem a = some .NOTIFY

variable {mem mem' : Memory} {b : Layout}

theorem mem_chains {a : Addr} : a ∈ b.chains.flatten ↔ a = b.term.post_ ∨ a ∈ b.triggers ∨ b.term.gate_ = some a ∨
    a ∈ b.body ∨ a ∈ b.async ∨ a ∈ b.outgoing := by
  unfold chains main
  cases b.async with
  | nil => simp
  | cons a as =>
    simp
    tauto

theorem Valid.exists_tag (h : b.Valid mem) {a : Addr} (ha : a ∈ b.chains.flatten) : ∃ k, tag? mem a = some k := by
  have hmapped : ∀ {l : List Addr} {tags : List Tag}, l.map (tag? mem) = tags.map some → a ∈ l →
      ∃ k, tag? mem a = some k := by
    intro l tags heq ha
    have hmem : tag? mem a ∈ tags.map some := heq ▸ mem_map_of_mem ha
    obtain ⟨k, -, hk⟩ := mem_map.mp hmem
    exact ⟨k, hk.symm⟩
  rcases mem_chains.mp ha with rfl | ha | ha | ha | ha | ha
  · exact ⟨_, h.post⟩
  · exact ⟨_, h.triggers a ha⟩
  · have hgate := h.gate
    rw [GateCounts, ha] at hgate
    exact ⟨_, hgate.1⟩
  · exact hmapped h.body ha
  · exact hmapped h.async ha
  · exact ⟨_, h.outgoing a ha⟩

theorem Valid.frame (h : b.Valid mem) (htag : ∀ a ∈ b.chains.flatten, tag? mem' a = tag? mem a)
    (hcondition : ∀ gate, b.term.gate_ = some gate → mem'.condition? gate = mem.condition? gate) :
    b.Valid mem' := by
  have hmapped : ∀ {l : List Addr}, (∀ a ∈ l, a ∈ b.chains.flatten) → l.map (tag? mem') = l.map (tag? mem) :=
    fun hl => map_congr_left fun a ha => htag a (hl a ha)
  have hpost := mem_chains.mpr (Or.inl rfl : b.term.post_ = b.term.post_ ∨ _)
  have hbody : ∀ a ∈ b.body, a ∈ b.chains.flatten := fun a ha => mem_chains.mpr (by tauto)
  have hasync : ∀ a ∈ b.async, a ∈ b.chains.flatten := fun a ha => mem_chains.mpr (by tauto)
  refine ⟨(htag _ hpost).trans h.post, ?_, (hmapped hbody).trans h.body, (hmapped hasync).trans h.async,
    ⟨h.invoke.1, (htag _ (hbody _ h.invoke.1)).trans h.invoke.2⟩, h.callback, ?_, ?_⟩
  · have hgate := h.gate
    unfold GateCounts at hgate ⊢
    cases hcase : b.term.gate_ with
    | none => rwa [hcase] at hgate
    | some gate =>
      rw [hcase] at hgate
      dsimp only at hgate ⊢
      rwa [htag gate (mem_chains.mpr (by tauto)), hcondition gate hcase]
  · exact fun a ha => (htag a (mem_chains.mpr (by tauto))).trans (h.triggers a ha)
  · exact fun a ha => (htag a (mem_chains.mpr (by tauto))).trans (h.outgoing a ha)

end Layout

/-! ## Several Terms -/

/-- All Activities of the chains of several Terms. -/
def owned (built : List Layout) : List Addr := (built.flatMap Layout.chains).flatten

/-- **The chains of all Terms are in memory**, and have no Activity in common. -/
structure Consistent (mem : Memory) (built : List Layout) : Prop where
  threaded : Threaded mem.next (built.flatMap Layout.chains)
  valid : ∀ b ∈ built, b.Valid mem

namespace Consistent

variable {mem mem' : Memory} {built pre post : List Layout} {b b' : Layout} {a t gate : Addr} {x : Addr}

theorem mem_owned : x ∈ owned built ↔ ∃ b ∈ built, x ∈ b.chains.flatten := by
  simp only [owned, mem_flatten, mem_flatMap]
  constructor
  · rintro ⟨chain, ⟨b, hb, hchain⟩, hx⟩
    exact ⟨b, hb, chain, hchain, hx⟩
  · rintro ⟨b, hb, chain, hchain, hx⟩
    exact ⟨chain, ⟨b, hb, hchain⟩, hx⟩

theorem lt_of_owned (h : Consistent mem built) (hx : x ∈ owned built) : x < mem.length := by
  obtain ⟨b, hb, hx⟩ := mem_owned.mp hx
  obtain ⟨k, hk⟩ := (h.valid b hb).exists_tag hx
  exact lt_of_tag? hk

theorem frame (h : Consistent mem built) (hnext : ∀ a ∈ owned built, mem'.next a = mem.next a)
    (htag : ∀ a ∈ owned built, tag? mem' a = tag? mem a)
    (hcondition : ∀ a ∈ owned built, mem'.condition? a = mem.condition? a) : Consistent mem' built where
  threaded := h.threaded.congr hnext
  valid b hb := (h.valid b hb).frame (fun a ha => htag a (mem_owned.mpr ⟨b, hb, ha⟩)) fun gate hgate =>
    hcondition gate (mem_owned.mpr ⟨b, hb, Layout.mem_chains.mpr (Or.inr (Or.inr (Or.inl hgate)))⟩)

theorem flatMap_middle (pre post : List Layout) (b : Layout) :
    (pre ++ b :: post).flatMap Layout.chains =
      pre.flatMap Layout.chains ++ (b.chains ++ post.flatMap Layout.chains) := by
  rw [flatMap_append, flatMap_cons]

/-- An Activity is spliced into a chain of one Term. -/
theorem splice (h : Consistent mem (pre ++ b :: post)) {before behind : List (List Addr)} {l₁ l₂ : List Addr}
    (hb : b.chains = before ++ (l₁ ++ a :: l₂) :: behind) (hb' : b'.chains = before ++ (l₁ ++ a :: t :: l₂) :: behind)
    (ht : t < mem.length) (hnew : t ∉ owned (pre ++ b :: post)) (hvalid : b'.Valid mem) : Consistent (mem.insert a t)
    (pre ++ b' :: post) := by
  have hthreaded := h.threaded
  have hold : (pre ++ b :: post).flatMap Layout.chains =
      (pre.flatMap Layout.chains ++ before) ++ (l₁ ++ a :: l₂) :: (behind ++ post.flatMap Layout.chains) := by
    rw [flatMap_middle, hb, append_assoc, append_assoc, cons_append]
  have hchanged : (pre ++ b' :: post).flatMap Layout.chains =
      (pre.flatMap Layout.chains ++ before) ++ (l₁ ++ a :: t :: l₂) ::
      (behind ++ post.flatMap Layout.chains) := by
    rw [flatMap_middle, hb', append_assoc, append_assoc, cons_append]
  have ha : a < mem.length := by
    refine h.lt_of_owned ?_
    rw [owned, hold]
    simp
  rw [owned, hold] at hnew
  rw [hold] at hthreaded
  refine ⟨?_, fun c hc => ?_⟩
  · rw [next_insert ha ht, hchanged]
    exact hthreaded.splice hnew
  · have hc' : c.Valid mem := by
      rcases mem_append.mp hc with hmem | hmem
      · exact h.valid c (mem_append_left _ hmem)
      · rcases mem_cons.mp hmem with rfl | hmem
        · exact hvalid
        · exact h.valid c (mem_append_right _ (mem_cons_of_mem _ hmem))
    exact hc'.frame (fun x _ => by rw [tag?_insert]) fun gate _ => by rw [condition?_insert]

theorem exists_tail (hvalid : b.Valid mem) (t : Addr) :
    ∃ before l₁ l₂, b.chains = before ++ [l₁ ++ b.term.callback_.getD b.term.invoke_ :: l₂] ∧
      { b with outgoing := b.outgoing ++ [t] }.chains =
        before ++ [l₁ ++ b.term.callback_.getD b.term.invoke_ :: (l₂ ++ [t])] := by
  have hcallback := hvalid.callback
  cases hasync : b.async with
  | nil =>
    obtain ⟨body₁, body₂, hbody⟩ := append_of_mem hvalid.invoke.1
    refine ⟨[], b.term.post_ :: (b.triggers ++ (b.term.gate_.toList ++ body₁)), body₂ ++ b.outgoing, ?_, ?_⟩
    · rw [hcallback, Layout.chains, hasync, Layout.main, hbody]
      simp
    · rw [hcallback, hasync, Layout.chains]
      rw [Layout.main]
      rw [hbody]
      simp
  | cons callback rest =>
    refine ⟨[b.main], [], rest ++ b.outgoing, ?_, ?_⟩
    · rw [hcallback, Layout.chains, hasync]
      rfl
    · rw [hcallback, hasync]
      rw [append_assoc]
      rfl

/-- A notification is linked to the end of a chain, which is always found. -/
theorem appendToTail (h : Consistent mem (pre ++ b :: post)) (htag : tag? mem t = some .NOTIFY)
    (hnew : t ∉ owned (pre ++ b :: post)) : ∃ tail, b.term.appendToTail t mem = some (mem.insert tail t) ∧
      Consistent (mem.insert tail t) (pre ++ { b with outgoing := b.outgoing ++ [t] } :: post) := by
  have hvalid := h.valid b (by simp)
  obtain ⟨before, l₁, l₂, hb, hb'⟩ := exists_tail hvalid t
  have hmem : l₁ ++ b.term.callback_.getD b.term.invoke_ :: l₂ ∈
      (pre ++ b :: post).flatMap Layout.chains := by
    rw [flatMap_middle, hb]
    simp
  have hlinked := (h.threaded.linked _ hmem).right
  have hlength : l₂.length < mem.length := by
    -- there are not more Activities linked than stored
    have hnodup := (nodup_flatten.mp h.threaded.nodup).1 _ hmem
    have hsubset : l₁ ++ b.term.callback_.getD b.term.invoke_ :: l₂ ⊆ List.range mem.length := by
      intro x hx
      exact mem_range.mpr (h.lt_of_owned (mem_flatten_of_mem hmem hx))
    have hcount := (subperm_of_subset hnodup hsubset).length_le
    rw [length_range, length_append, length_cons] at hcount
    omega
  obtain ⟨init, tail, heq, hfind⟩ := findTail_eq hlinked hlength
  refine ⟨tail, by rw [Term.appendToTail, hfind, Option.map_some], ?_⟩
  have hsplit : l₁ ++ b.term.callback_.getD b.term.invoke_ :: l₂ = (l₁ ++ init) ++ tail :: [] := by
    rw [heq, append_assoc]
  have hsplit' : l₁ ++ b.term.callback_.getD b.term.invoke_ ::
      (l₂ ++ [t]) = (l₁ ++ init) ++ tail :: t :: [] := by
    rw [← cons_append, heq]
    simp
  rw [hsplit] at hb
  rw [hsplit'] at hb'
  refine h.splice hb hb' (lt_of_tag? htag) hnew ?_
  refine ⟨hvalid.post, hvalid.gate, hvalid.body, hvalid.async, hvalid.invoke, hvalid.callback,
    hvalid.triggers, ?_⟩
  intro x hx
  rcases mem_append.mp hx with hx | hx
  · exact hvalid.outgoing x hx
  · rw [mem_singleton.mp hx, htag]

theorem chains_behind_post {rest : List Addr} (hmain : b.main = b.term.post_ :: rest)
    (hmain' : b'.main = b.term.post_ :: t :: rest) (hasync : b'.async = b.async)
    (hout : b'.outgoing = b.outgoing) :
    ∃ l₂ behind, b.chains = [] ++ ([] ++ b.term.post_ :: l₂) :: behind ∧
      b'.chains = [] ++ ([] ++ b.term.post_ :: t :: l₂) :: behind := by
  rw [Layout.chains, Layout.chains, hasync, hout, hmain, hmain']
  cases b.async with
  | nil => exact ⟨rest ++ b.outgoing, [], rfl, rfl⟩
  | cons callback rest' => exact ⟨rest, [callback :: rest' ++ b.outgoing], rfl, rfl⟩

theorem ne_of_other (h : Consistent mem (pre ++ b :: post)) {c : Layout} (hc : c ∈ pre ∨ c ∈ post) {y : Addr}
    (hx : x ∈ c.chains.flatten) (hy : y ∈ b.chains.flatten) : x ≠ y := by
  have hnodup := h.threaded.nodup
  rw [flatMap_middle, flatten_append, flatten_append, nodup_append] at hnodup
  obtain ⟨-, hrest, hpre⟩ := hnodup
  have hflatten : ∀ {l : List Layout}, c ∈ l → x ∈ (l.flatMap Layout.chains).flatten :=
    fun hc => mem_owned.mpr ⟨c, hc, hx⟩
  rcases hc with hc | hc
  · exact hpre x (hflatten hc) y (mem_append_left _ hy)
  · exact ((nodup_append.mp hrest).2.2 y hy x (hflatten hc)).symm

/-- What an operation on one Term keeps: Activities remain what they are, and none gets into the
chain but the Gate. -/
structure Extends (mem mem' : Memory) (b b' : Layout) : Prop where
  tag : ∀ a < mem.length, tag? mem' a = tag? mem a
  within : ∀ a < mem.length, a ∈ b'.chains.flatten → a ∈ b.chains.flatten

theorem Extends.not_owned (hext : Extends mem mem' b b') (hx : x < mem.length)
    (hnew : x ∉ owned (pre ++ b :: post)) : x ∉ owned (pre ++ b' :: post) := by
  intro howned
  obtain ⟨c, hc, hmem⟩ := mem_owned.mp howned
  have hin : ∃ d ∈ pre ++ b :: post, x ∈ d.chains.flatten := by
    rcases mem_append.mp hc with hc | hc
    · exact ⟨c, mem_append_left _ hc, hmem⟩
    · rcases mem_cons.mp hc with rfl | hc
      · exact ⟨b, by simp, hext.within x hx hmem⟩
      · exact ⟨c, mem_append_right _ (mem_cons_of_mem _ hc), hmem⟩
  exact hnew (mem_owned.mpr hin)

/-- The layout with a Gate. -/
def gated (b : Layout) (gate : Addr) : Layout := { b with term := { b.term with gate_ := some gate } }

/-- There is a Gate, or it is placed behind the `POST`. -/
theorem setupGate (h : Consistent mem (pre ++ b :: post)) :
    ∃ gate mem', b.term.setupGate mem = some ((gated b gate).term, mem') ∧
      Consistent mem' (pre ++ gated b gate :: post) ∧ Extends mem mem' b (gated b gate) := by
  have hvalid := h.valid b (by simp)
  cases hcase : b.term.gate_ with
  | some gate =>
    have heq : gated b gate = b := by
      obtain ⟨kind, ⟨invoke, post, gate', callback⟩, expected, triggers, body, async, outgoing⟩ := b
      cases hcase
      rfl
    refine ⟨gate, mem, ?_, by rwa [heq], by rw [heq]; exact ⟨fun _ _ => rfl, fun _ _ ha => ha⟩⟩
    rw [heq, Term.setupGate, hcase]
    rfl
  | none =>
    have hgate := hvalid.gate
    rw [Layout.GateCounts, hcase] at hgate
    obtain ⟨-, hexpected, htriggers⟩ := hgate
    obtain ⟨window, hwindow⟩ := exists_timeWindow hvalid.post
    -- the Gate is stored at the next address, and not yet linked
    obtain ⟨mem₁, hmem₁⟩ : ∃ mem₁ : Memory, mem₁ = mem ++ [⟨.GATE ⟨0, window.dead⟩, none⟩] := ⟨_, rfl⟩
    have hlength : mem₁.length = mem.length + 1 := by rw [hmem₁, length_append, length_singleton]
    have htag₁ : ∀ x < mem.length, tag? mem₁ x = tag? mem x :=
        fun x hx => by rw [hmem₁, tag?_append_left hx]
    have hframe : Consistent mem₁ (pre ++ b :: post) := by
      refine h.frame ?_ (fun x hx => htag₁ x (h.lt_of_owned hx)) ?_
      · intro x _
        rw [hmem₁, Memory.next_append _ rfl]
      · intro x hx
        rw [hmem₁, condition?_append_left (h.lt_of_owned hx)]
    have htag : tag? mem₁ mem.length = some .GATE := by
      rw [hmem₁]
      exact tag?_block [⟨.GATE ⟨0, window.dead⟩, none⟩] 0
    have hcondition : mem₁.condition? mem.length = some ⟨0, window.dead⟩ := by
      rw [hmem₁]
      exact condition?_block [⟨.GATE ⟨0, window.dead⟩, none⟩] 0
    have hmain : b.main = b.term.post_ :: b.body := by
      rw [Layout.main, hcase, htriggers]
      rfl
    have hmain' : (gated b mem.length).main = b.term.post_ :: mem.length :: b.body := by
      rw [gated, htriggers]
      rfl
    obtain ⟨l₂, behind, hb, hb'⟩ := chains_behind_post hmain hmain' rfl rfl
    have hvalid₁ := hframe.valid b (by simp)
    refine ⟨mem.length, mem₁.insert b.term.post_ mem.length, ?_, ?_, ?_, ?_⟩
    · rw [Term.setupGate, hcase, Memory.setupGate, hwindow, hmem₁]
      rfl
    · refine hframe.splice hb hb' (show mem.length < mem₁.length by omega)
        (fun hmem => Nat.lt_irrefl _ (h.lt_of_owned hmem)) ?_
      refine ⟨hvalid₁.post, ?_, hvalid₁.body, hvalid₁.async, hvalid₁.invoke, hvalid₁.callback,
        hvalid₁.triggers,
        hvalid₁.outgoing⟩
      refine ⟨htag, ⟨0, window.dead⟩, hcondition, ?_⟩
      rw [gated, hexpected, htriggers]
      rfl
    · intro x hx
      rw [tag?_insert, htag₁ x hx]
    · intro x hx hmem
      rcases Layout.mem_chains.mp hmem with hmem | hmem | hmem | hmem
      · exact Layout.mem_chains.mpr (Or.inl hmem)
      · exact Layout.mem_chains.mpr (Or.inr (Or.inl hmem))
      · cases hmem
        exact absurd hx (Nat.lt_irrefl _)
      · exact Layout.mem_chains.mpr (Or.inr (Or.inr (Or.inr hmem)))

/-- The Gate waits for one more notification. -/
theorem incDependencies (h : Consistent mem (pre ++ b :: post)) (hgate : b.term.gate_ = some gate)
    {c : Condition}
    (hc : mem.condition? gate = some c) :
    Consistent (mem.setVerb gate (.GATE c.incDependencies))
      (pre ++ { b with expected := b.expected + 1 } :: post) := by
  have hvalid := h.valid b (by simp)
  have hcounts := hvalid.gate
  rw [Layout.GateCounts, hgate] at hcounts
  obtain ⟨htag, c', hc', hrest⟩ := hcounts
  obtain rfl := Option.some.inj (hc.symm.trans hc')
  have htags : tag? (mem.setVerb gate (.GATE c.incDependencies)) = tag? mem := tag?_setVerb htag
  have hconditions := Memory.condition?_setVerb (.GATE c.incDependencies) (lt_of_tag? htag)
  have hmem : gate ∈ b.chains.flatten := Layout.mem_chains.mpr (Or.inr (Or.inr (Or.inl hgate)))
  constructor
  · have hchains : (pre ++ { b with expected := b.expected + 1 } :: post).flatMap Layout.chains =
        (pre ++ b :: post).flatMap Layout.chains := by
      rw [flatMap_middle, flatMap_middle]
      rfl
    rw [Memory.next_setVerb, hchains]
    exact h.threaded
  · intro d hd
    -- the condition of another Gate is not changed
    have hother : ∀ d, d ∈ pre ∨ d ∈ post → d.Valid (mem.setVerb gate (.GATE c.incDependencies)) := by
      intro d hd
      have hold : d ∈ pre ++ b :: post := by
        rcases hd with hd | hd
        · exact mem_append_left _ hd
        · exact mem_append_right _ (mem_cons_of_mem _ hd)
      refine (h.valid d hold).frame (fun x _ => by rw [htags]) fun gate' hgate' => ?_
      have hne := h.ne_of_other hd (Layout.mem_chains.mpr (Or.inr (Or.inr (Or.inl hgate')))) hmem
      rw [hconditions, Function.update_of_ne hne]
    rcases mem_append.mp hd with hd | hd
    · exact hother d (Or.inl hd)
    · rcases mem_cons.mp hd with rfl | hd
      · refine ⟨htags ▸ hvalid.post, ?_, htags ▸ hvalid.body, htags ▸ hvalid.async, htags ▸ hvalid.invoke,
          hvalid.callback, htags ▸ hvalid.triggers, htags ▸ hvalid.outgoing⟩
        rw [Layout.GateCounts]
        rw [hgate]
        refine ⟨htags ▸ htag, c.incDependencies, ?_, ?_⟩
        · rw [hconditions, Function.update_self]
          rfl
        · rw [Condition.incDependencies, hrest]
          push_cast
          ring
      · exact hother d (Or.inr hd)

/-- A Term waits for a notification; this can always be set up. -/
theorem expectNotification (h : Consistent mem (pre ++ b :: post)) {src : Addr}
    (hsrc : tag? mem src = some .NOTIFY)
    (unlimitedTime : Bool) :
    ∃ gate mem', b.term.expectNotification src unlimitedTime mem = some ((gated b gate).term, mem') ∧
      Consistent mem' (pre ++ { gated b gate with expected := b.expected + 1 } :: post) ∧
      Extends mem mem' b (gated b gate) := by
  obtain ⟨gate, mem₁, hsetup, hcons, hext⟩ := h.setupGate
  have hvalid := hcons.valid (gated b gate) (by simp)
  have hcounts : (gated b gate).GateCounts mem₁ := hvalid.gate
  obtain ⟨htag, c, hc, -⟩ := hcounts
  have hinc := hcons.incDependencies rfl hc
  obtain ⟨window, hwindow⟩ := exists_timeWindow
      (hinc.valid _ (mem_append_right _ mem_cons_self)).post
  have htags : tag? (mem₁.setVerb gate (.GATE c.incDependencies)) = tag? mem₁ := tag?_setVerb htag
  have hsrc₂ : tag? (mem₁.setVerb gate (.GATE c.incDependencies)) src = some .NOTIFY := by
    rw [htags, hext.tag src (lt_of_tag? hsrc), hsrc]
  have hnotify : ∀ target timing, tag? ((mem₁.setVerb gate (.GATE c.incDependencies)).setVerb src
      (.NOTIFY target timing)) = tag? mem₁ := by
    intro target timing
    rw [tag?_setVerb hsrc₂, htags]
  refine ⟨gate, (mem₁.setVerb gate (.GATE c.incDependencies)).setVerb src
    (.NOTIFY (some gate) (if unlimitedTime then Lib.Time.ANYTIME else window.life)), ?_,
    hinc.frame ?_ ?_ ?_, ?_⟩
  · have hgate : (gated b gate).term.gate_ = some gate := rfl
    have hpost : ((gated b gate).term.post_) = b.term.post_ := rfl
    change Memory.timeWindow? _ b.term.post_ = some window at hwindow
    rw [Term.expectNotification, if_pos hsrc, hsetup]
    simp only [Option.bind_eq_bind, Option.bind_some, hgate, hpost, hc, hwindow]
  · intro x _
    rw [Memory.next_setVerb]
  · intro x _
    rw [hnotify, htags]
  · intro x _
    have hnone : Memory.condition? (mem₁.setVerb gate (.GATE c.incDependencies)) src = none :=
      condition?_eq_none (by rw [hsrc₂]; decide)
    rw [Memory.condition?_setVerb _ (lt_of_tag? hsrc₂)]
    by_cases hx : x = src
    · rw [hx, Function.update_self, hnone]
      rfl
    · rw [Function.update_of_ne hx]
  · refine ⟨fun x hx => ?_, hext.within⟩
    rw [hnotify, hext.tag x hx]

/-- A trigger is placed behind the `POST`; it was counted by the Gate already. -/
theorem insertTrigger (h : Consistent mem (pre ++ { b with expected := b.expected + 1 } :: post))
    (htag : tag? mem t = some .NOTIFY) (hnew : t ∉ owned
    (pre ++ { b with expected := b.expected + 1 } :: post)) :
    Consistent (mem.insert b.term.post_ t) (pre ++ { b with triggers := t :: b.triggers } :: post) := by
  have hvalid := h.valid { b with expected := b.expected + 1 } (by simp)
  have hmain : Layout.main { b with expected := b.expected + 1 } =
      b.term.post_ :: (b.triggers ++ (b.term.gate_.toList ++ b.body)) := rfl
  have hmain' : Layout.main { b with triggers := t :: b.triggers } =
      b.term.post_ :: t :: (b.triggers ++ (b.term.gate_.toList ++ b.body)) := rfl
  obtain ⟨l₂, behind, hb, hb'⟩ := chains_behind_post hmain hmain' rfl rfl
  refine h.splice hb hb' (lt_of_tag? htag) hnew ?_
  refine ⟨hvalid.post, ?_, hvalid.body, hvalid.async, hvalid.invoke, hvalid.callback, ?_, hvalid.outgoing⟩
  · have hgate := hvalid.gate
    unfold Layout.GateCounts at hgate ⊢
    cases hcase : b.term.gate_ with
    | none =>
      rw [hcase] at hgate
      exact absurd hgate.2.1 (Nat.succ_ne_zero _)
    | some gate =>
      rw [hcase] at hgate
      obtain ⟨hgate, c, hc, hrest⟩ := hgate
      refine ⟨hgate, c, hc, ?_⟩
      rw [hrest, length_cons]
      push_cast
      ring
  · intro x hx
    rcases mem_cons.mp hx with rfl | hx
    · exact htag
    · exact hvalid.triggers x hx

end Consistent

end Lumiera.Vault.Gear.TermBuilder
