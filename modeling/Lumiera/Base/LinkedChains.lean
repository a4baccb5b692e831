import Mathlib.Data.List.Nodup

/-! # Chains linked by a successor

Nodes hold a link to their successor, and several chains are built up in the same storage. As long
as no node belongs to two places, a node can be **spliced** into a chain behind another one, or a
chain be **cut** into two parts, without effect on the other chains. -/

namespace Lumiera

open Function List

variable {α : Type*}

/-- **The nodes are linked one after the other**, and nothing follows behind the last one. -/
def LinkedUp (next : α → Option α) : List α → Prop
  | [] => True
  | a :: rest => next a = rest.head? ∧ LinkedUp next rest

namespace LinkedUp

variable {next next' : α → Option α} {l l₁ l₂ : List α} {a t : α}

theorem congr (h : LinkedUp next l) (hnext : ∀ x ∈ l, next' x = next x) : LinkedUp next' l := by
  induction l with
  | nil => trivial
  | cons a l ih =>
    obtain ⟨ha, hl⟩ := h
    refine ⟨(hnext a mem_cons_self).trans ha, ih hl ?_⟩
    exact fun x hx => hnext x (mem_cons_of_mem a hx)

theorem right (h : LinkedUp next (l₁ ++ l₂)) : LinkedUp next l₂ := by
  induction l₁ with
  | nil => exact h
  | cons a l₁ ih => exact ih h.2

variable [DecidableEq α]

/-- The links after placing a node behind another one. -/
def spliced (next : α → Option α) (a t : α) : α → Option α :=
  update (update next t (next a)) a (some t)

theorem spliced_of_ne {x : α} (ha : x ≠ a) (ht : x ≠ t) : spliced next a t x = next x := by
  rw [spliced, update_of_ne ha, update_of_ne ht]

/-- A node is spliced into the chain. -/
theorem splice (h : LinkedUp next (l₁ ++ a :: l₂)) (hnodup : (l₁ ++ a :: l₂).Nodup) (ht : t ∉ l₁ ++ a :: l₂) :
    LinkedUp (spliced next a t) (l₁ ++ a :: t :: l₂) := by
  induction l₁ with
  | nil =>
    obtain ⟨hanchor, hrest⟩ := h
    have hta : t ≠ a := fun heq => ht (heq ▸ mem_cons_self)
    refine ⟨update_self .., ?_, hrest.congr ?_⟩
    · rw [spliced, update_of_ne hta, update_self, hanchor]
    · intro x hx
      refine spliced_of_ne ?_ ?_
      · exact fun heq => (nodup_cons.mp hnodup).1 (heq ▸ hx)
      · exact fun heq => ht (mem_cons_of_mem a (heq ▸ hx))
  | cons b l₁ ih =>
    obtain ⟨hfirst, hrest⟩ := h
    rw [cons_append, nodup_cons] at hnodup
    rw [cons_append, mem_cons, not_or] at ht
    refine ⟨?_, ih hrest hnodup.2 ht.2⟩
    have hba : b ≠ a := fun heq => hnodup.1 (heq ▸ mem_append_right l₁ mem_cons_self)
    rw [spliced_of_ne hba (Ne.symm ht.1), hfirst]
    cases l₁ <;> rfl

end LinkedUp

/-- **Several chains**, where no node belongs to two places. -/
structure Threaded (next : α → Option α) (chains : List (List α)) : Prop where
  linked : ∀ chain ∈ chains, LinkedUp next chain
  nodup : chains.flatten.Nodup

namespace Threaded

variable {next next' : α → Option α} {pre post chains : List (List α)} {l₁ l₂ : List α} {a t : α}

theorem congr (h : Threaded next chains) (hnext : ∀ x ∈ chains.flatten, next' x = next x) :
    Threaded next' chains where
  linked chain hchain := (h.linked chain hchain).congr fun x hx => hnext x (mem_flatten_of_mem hchain hx)
  nodup := h.nodup

theorem append {chains' : List (List α)} (h : Threaded next chains) (h' : Threaded next chains')
    (hnew : ∀ x ∈ chains'.flatten, x ∉ chains.flatten) : Threaded next (chains ++ chains') where
  linked c hc := by
    rcases mem_append.mp hc with hc | hc
    · exact h.linked c hc
    · exact h'.linked c hc
  nodup := by
    rw [flatten_append]
    exact nodup_append.mpr ⟨h.nodup, h'.nodup, fun x hx y hy heq => hnew y hy (heq ▸ hx)⟩

theorem ne_of_other (hnodup : (pre ++ l₁ :: post).flatten.Nodup) {x : α} (ha : a ∈ l₁)
    {chain : List α} (hchain : chain ∈ pre ∨ chain ∈ post) (hx : x ∈ chain) : x ≠ a := by
  rintro rfl
  rw [flatten_append, nodup_append] at hnodup
  obtain ⟨-, hrest, hpre⟩ := hnodup
  rcases hchain with hchain | hchain
  · exact hpre x (mem_flatten_of_mem hchain hx) x (mem_append_left _ ha) rfl
  · exact (nodup_append.mp hrest).2.2 x ha x (mem_flatten_of_mem hchain hx) rfl

theorem replace {parts : List (List α)} (h : Threaded next (pre ++ l₁ :: post))
    (hparts : ∀ part ∈ parts, LinkedUp next' part) (hnodup : (pre ++ (parts ++ post)).flatten.Nodup)
    (hnext : ∀ chain, chain ∈ pre ∨ chain ∈ post → ∀ x ∈ chain, next' x = next x) :
    Threaded next' (pre ++ (parts ++ post)) := by
  refine ⟨fun chain hchain => ?_, hnodup⟩
  have hsame : ∀ chain, chain ∈ pre ∨ chain ∈ post → LinkedUp next' chain := by
    intro chain hmem
    refine (h.linked chain ?_).congr (hnext chain hmem)
    rcases hmem with hmem | hmem
    · exact mem_append_left _ hmem
    · exact mem_append_right _ (mem_cons_of_mem _ hmem)
  rcases mem_append.mp hchain with hmem | hmem
  · exact hsame chain (Or.inl hmem)
  · rcases mem_append.mp hmem with hmem | hmem
    · exact hparts chain hmem
    · exact hsame chain (Or.inr hmem)

variable [DecidableEq α]

/-- Splicing a new node into one of the chains. -/
theorem splice (h : Threaded next (pre ++ (l₁ ++ a :: l₂) :: post))
    (ht : t ∉ (pre ++ (l₁ ++ a :: l₂) :: post).flatten) :
    Threaded (LinkedUp.spliced next a t) (pre ++ (l₁ ++ a :: t :: l₂) :: post) := by
  have hperm : (pre ++ (l₁ ++ a :: t :: l₂) :: post).flatten.Perm
      (t :: (pre ++ (l₁ ++ a :: l₂) :: post).flatten) := by
    have hsplit : (pre ++ (l₁ ++ a :: t :: l₂) :: post).flatten = (pre.flatten ++ l₁ ++ [a]) ++ t ::
        (l₂ ++ post.flatten) := by
      simp
    have hsplit' : (pre ++ (l₁ ++ a :: l₂) :: post).flatten = (pre.flatten ++ l₁ ++ [a]) ++
        (l₂ ++ post.flatten) := by
      simp
    rw [hsplit, hsplit']
    exact perm_middle
  have hmem : l₁ ++ a :: l₂ ∈ pre ++ (l₁ ++ a :: l₂) :: post := mem_append_right _ mem_cons_self
  have htchain : t ∉ l₁ ++ a :: l₂ := fun hmem' => ht (mem_flatten_of_mem hmem hmem')
  have hchain := (h.linked _ hmem).splice ((nodup_flatten.mp h.nodup).1 _ hmem) htchain
  have hnodup := hperm.nodup_iff.mpr (nodup_cons.mpr ⟨ht, h.nodup⟩)
  have hparts : ∀ part ∈ [l₁ ++ a :: t :: l₂], LinkedUp (LinkedUp.spliced next a t) part :=
    forall_mem_singleton.mpr hchain
  refine h.replace hparts hnodup fun chain hother x hx => LinkedUp.spliced_of_ne ?_ ?_
  · exact ne_of_other h.nodup (mem_append_right _ mem_cons_self) hother hx
  · rintro rfl
    refine ht (mem_flatten_of_mem ?_ hx)
    rcases hother with hother | hother
    · exact mem_append_left _ hother
    · exact mem_append_right _ (mem_cons_of_mem _ hother)

end Threaded

end Lumiera
