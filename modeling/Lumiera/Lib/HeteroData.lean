import Mathlib.Data.List.Basic

/-! # Chains of data blocks (`lib/hetero-data.hpp`)

Blocks of data in different places of the storage are linked into a chain, starting with a fixed
front block. The type of a block tells the number of blocks it expects in the chain before it; there
is no further information at run time. A block is **attached** at the end of the chain and
**detached** again; what is in the chain is found by following the links. -/

namespace Lumiera.Lib

open Function List

universe u

/-- The data blocks in the storage, by address, and the links between them; the front block has no address. -/
structure HeteroData (P : Type u) where
  front : List P
  block : ℕ → List P
  /-- `StorageLoc::next`, of the front block or of a block at some address. -/
  next : Option ℕ → Option ℕ

namespace HeteroData

variable {P : Type u}

/-- A new block with this data, not linked to another one (`Chain::emplace`). -/
def emplace (h : HeteroData P) (storage : ℕ) (data : List P) : HeteroData P :=
  { h with block := update h.block storage data, next := update h.next (some storage) none }

/-- The place where to attach a block which expects this number of segments; none when the assertion
fails that the number is right. -/
def checkedTraversal (h : HeteroData P) : ℕ → Option ℕ → Option (Option ℕ)
  | 0, _ => none
  | segments + 1, last =>
    match h.next last with
    | some block => checkedTraversal h segments (some block)
    | none => if segments + 1 = 1 then some last else none

/-- `StorageFrame::linkInto`. -/
def linkInto (h : HeteroData P) (seg storage : ℕ) : Option (HeteroData P) :=
  (h.checkedTraversal seg none).map fun last => { h with next := update h.next last (some storage) }

/-- Detaches the block at the link to it; none when it is not found (`NOTREACHED`). -/
def checkedDetach (h : HeteroData P) (chainBlock : ℕ) : ℕ → Option ℕ → Option (HeteroData P)
  | 0, _ => none
  | segments + 1, seg =>
    match h.next seg with
    | none => none
    | some block =>
      if segments + 1 = 1 ∧ block = chainBlock then some
        { h with next := update h.next seg none }
      else checkedDetach h chainBlock segments (some block)

/-- `StorageFrame::detachFrom`. -/
def detachFrom (h : HeteroData P) (seg storage : ℕ) : Option (HeteroData P) :=
    h.checkedDetach storage seg none

/-- The data of the next blocks after the given one, as found by following the links (`accessTail`);
none when there is no further block. -/
def tailData (h : HeteroData P) : ℕ → Option ℕ → Option (List (List P))
  | 0, _ => some []
  | segments + 1, seg =>
    match h.next seg with
    | none => none
    | some block => (tailData h segments (some block)).map (h.block block :: ·)

/-- All data within reach of an accessor which expects this number of blocks after the front. -/
def data (h : HeteroData P) (segments : ℕ) : Option (List (List P)) :=
  (h.tailData segments none).map (h.front :: ·)

/-! ## What is linked -/

/-- The links lead from here through these blocks, and end there. -/
def Linked (next : Option ℕ → Option ℕ) : Option ℕ → List ℕ → Prop
  | seg, [] => next seg = none
  | seg, block :: blocks => next seg = some block ∧ Linked next (some block) blocks

/-- The last place of such a chain. -/
def lastSeg : Option ℕ → List ℕ → Option ℕ
  | seg, [] => seg
  | _, block :: blocks => lastSeg (some block) blocks

variable {next next' : Option ℕ → Option ℕ} {seg : Option ℕ} {blocks : List ℕ} {storage : ℕ}

theorem Linked.congr (h : Linked next seg blocks) (hseg : next' seg = next seg)
    (hblocks : ∀ block ∈ blocks, next' (some block) = next (some block)) : Linked next' seg blocks := by
  induction blocks generalizing seg with
  | nil => exact hseg.trans h
  | cons block blocks ih =>
    refine ⟨hseg.trans h.1, ih h.2 (hblocks block mem_cons_self) ?_⟩
    exact fun x hx => hblocks x (mem_cons_of_mem block hx)

theorem Linked.next_lastSeg (h : Linked next seg blocks) : next (lastSeg seg blocks) = none := by
  induction blocks generalizing seg with
  | nil => exact h
  | cons block blocks ih => exact ih h.2

theorem lastSeg_mem (seg : Option ℕ) (blocks : List ℕ) :
    lastSeg seg blocks = seg ∨ ∃ block ∈ blocks, lastSeg seg blocks = some block := by
  induction blocks generalizing seg with
  | nil => exact .inl rfl
  | cons block blocks ih =>
    right
    rcases ih (some block) with hfirst | ⟨x, hx, hlast⟩
    · exact ⟨block, mem_cons_self, hfirst⟩
    · exact ⟨x, mem_cons_of_mem block hx, hlast⟩

theorem lastSeg_append (seg : Option ℕ) (blocks : List ℕ) (storage : ℕ) :
    lastSeg seg (blocks ++ [storage]) = some storage := by
  induction blocks generalizing seg with
  | nil => rfl
  | cons block blocks ih => exact ih (some block)

theorem Linked.extend (h : Linked next seg blocks) (hend : next' (some storage) = none)
    (hlast : next' (lastSeg seg blocks) = some storage)
    (hsame : ∀ s, s ≠ lastSeg seg blocks → s ≠ some storage → next' s = next s)
    (hnodup : (seg :: blocks.map some).Nodup) (hnew : some storage ∉ seg :: blocks.map some) :
    Linked next' seg (blocks ++ [storage]) := by
  induction blocks generalizing seg with
  | nil => exact ⟨hlast, hend⟩
  | cons block blocks ih =>
    rw [nodup_cons] at hnodup
    have hne : seg ≠ lastSeg seg (block :: blocks) := by
      intro heq
      refine hnodup.1 ?_
      rcases lastSeg_mem (some block) blocks with hfirst | ⟨x, hx, hlast⟩
      · rw [heq, lastSeg, hfirst]
        exact mem_cons_self
      · rw [heq, lastSeg, hlast]
        exact mem_cons_of_mem _ (mem_map_of_mem hx)
    have hseg : seg ≠ some storage := fun heq => hnew (heq ▸ mem_cons_self)
    refine ⟨(hsame seg hne hseg).trans h.1, ih h.2 hlast hsame hnodup.2 ?_⟩
    exact fun hmem => hnew (mem_cons_of_mem seg hmem)

variable {h : HeteroData P}

theorem Linked.emplace (hlinked : Linked h.next none blocks) (hnew : storage ∉ blocks) (data : List P) :
    Linked (h.emplace storage data).next none blocks := by
  apply hlinked.congr
  · simp [HeteroData.emplace]
  · intro block hblock
    have hne : block ≠ storage := fun heq => hnew (heq ▸ hblock)
    simp [HeteroData.emplace, hne]

theorem checkedTraversal_linked (hlinked : Linked h.next seg blocks) :
    h.checkedTraversal (blocks.length + 1) seg = some (lastSeg seg blocks) := by
  induction blocks generalizing seg with
  | nil =>
    rw [checkedTraversal, show h.next seg = none from hlinked]
    rfl
  | cons block blocks ih =>
    rw [checkedTraversal, hlinked.1]
    exact ih hlinked.2

theorem checkedDetach_linked (hlinked : Linked h.next seg (blocks ++ [storage])) :
    h.checkedDetach storage (blocks.length + 1) seg =
      some { h with next := update h.next (lastSeg seg blocks) none } := by
  induction blocks generalizing seg with
  | nil =>
    rw [checkedDetach, hlinked.1]
    simp [lastSeg]
  | cons block blocks ih =>
    rw [checkedDetach, hlinked.1]
    simpa [lastSeg] using ih hlinked.2

theorem tailData_linked (hlinked : Linked h.next seg blocks) {segments : ℕ} (hle : segments ≤ blocks.length) :
    h.tailData segments seg = some ((blocks.map h.block).take segments) := by
  induction segments generalizing seg blocks with
  | zero => simp [tailData]
  | succ segments ih =>
    cases blocks with
    | nil => simp at hle
    | cons block blocks =>
      rw [tailData, hlinked.1]
      simp [ih hlinked.2 (Nat.le_of_succ_le_succ hle)]

theorem data_linked (hlinked : Linked h.next none blocks) {segments : ℕ} (hle : segments ≤ blocks.length) :
    h.data segments = some ((h.front :: blocks.map h.block).take (segments + 1)) := by
  rw [data, tailData_linked hlinked hle]
  rfl

end HeteroData

end Lumiera.Lib
