import Lumiera.Base.Attempt
import Lumiera.Steam.Engine.BufferMetadata
import Mathlib.Data.List.Nodup

/-! # Working buffers in use (`steam/engine/buffer-provider.cpp`)

A buffer provider hands out buffers for exclusive use. Each buffer stands for one usage, and is
known by the number of buffers provided before; it is **locked** when it is handed out, then
**emitted** when the data is ready, and **released** in the end. What happens is logged, and the
**story** of a buffer is what the log says about it. -/

namespace Lumiera.Steam.Engine

open Function List

universe u

/-- What happens to buffers. -/
inductive BufferEvent
  /-- A buffer of this type is locked. -/
  | lock (buffer type : ℕ)
  | emit (buffer : ℕ)
  | release (buffer : ℕ)
  /-- A function reads some buffers and writes to others. -/
  | process (ins outs : List ℕ)
  deriving DecidableEq, Repr

/-- Whether an event is about this buffer. -/
def BufferEvent.concerns (buffer : ℕ) : BufferEvent → Bool
  | .lock other _ => buffer = other
  | .emit other => buffer = other
  | .release other => buffer = other
  | .process ins outs => buffer ∈ ins ∨ buffer ∈ outs

/-- The buffers of a provider. -/
structure WorkingBuffers (V : Type u) where
  /-- The number of buffers provided so far. -/
  provided : ℕ
  state : ℕ → BufferState
  /-- The data in a buffer, after something was stored there, until it is released. -/
  content : ℕ → Option V
  log : List BufferEvent

namespace WorkingBuffers

variable {V : Type u}

/-- What the log says about this buffer. -/
def story (w : WorkingBuffers V) (buffer : ℕ) : List BufferEvent := w.log.filter (·.concerns buffer)

/-- `BufferProvider::lockBuffer`: the new buffer is the one with the next number. -/
def lockBuffer (w : WorkingBuffers V) (type : ℕ) : WorkingBuffers V where
  provided := w.provided + 1
  state := update w.state w.provided .LOCKED
  content := update w.content w.provided none
  log := w.log ++ [.lock w.provided type]

/-- `BufferProvider::emitBuffer`; without result when an exception is raised, since the buffer is
not locked. -/
def emitBuffer (w : WorkingBuffers V) (buffer : ℕ) : Option (WorkingBuffers V) :=
  if w.state buffer = .LOCKED then
    some { w with state := update w.state buffer .EMITTED, log := w.log ++ [.emit buffer] }
  else none

/-- `BufferProvider::releaseBuffer`. -/
def releaseBuffer (w : WorkingBuffers V) (buffer : ℕ) : WorkingBuffers V :=
  { w with
    state := update w.state buffer .FREE
    content := update w.content buffer none
    log := w.log ++ [.release buffer] }

/-- Store these data into these buffers. -/
def store (content : ℕ → Option V) : List ℕ → List V → ℕ → Option V
  | buffer :: buffers, value :: values => store (update content buffer (some value)) buffers values
  | _, _ => content

/-- A function reads from the first buffers and stores its results into the other ones; none when
there is no data in one of the first ones. -/
def process (w : WorkingBuffers V) (ins outs : List ℕ) (function : List V → List V) :
    Option (WorkingBuffers V) :=
  (ins.mapM w.content).map fun values =>
    { w with content := store w.content outs (function values), log := w.log ++ [.process ins outs] }

/-- Release several buffers. -/
def releaseAll (w : WorkingBuffers V) (buffers : List ℕ) : WorkingBuffers V := buffers.foldl releaseBuffer w

/-- Emit the output buffers from this slot on, and release them, save for the result. -/
def emitOutputs (resultSlot : ℕ) : ℕ → List ℕ → WorkingBuffers V → Attempt (WorkingBuffers V) Unit
  | _, [], w => .ok () w
  | i, buffer :: buffers, w =>
    match w.emitBuffer buffer with
    | none => .raised w
    | some w => emitOutputs resultSlot (i + 1) buffers
      (if i ≠ resultSlot then w.releaseBuffer buffer else w)

/-! ## What each operation adds to the story of a buffer -/

variable {w w' : WorkingBuffers V} {buffer : ℕ}

@[simp] theorem story_lockBuffer (w : WorkingBuffers V) (type buffer : ℕ) :
    (w.lockBuffer type).story buffer =
      w.story buffer ++ if buffer = w.provided then [.lock w.provided type] else [] := by
  simp only [story, lockBuffer]
  split <;> simp_all [BufferEvent.concerns]

@[simp] theorem story_releaseBuffer (w : WorkingBuffers V) (other buffer : ℕ) :
    (w.releaseBuffer other).story buffer = w.story buffer ++ if buffer = other then
    [.release other] else [] := by
  simp only [story, releaseBuffer]
  split <;> simp_all [BufferEvent.concerns]

theorem story_emitBuffer {other : ℕ} (h : w.emitBuffer other = some w') (buffer : ℕ) :
    w'.story buffer = w.story buffer ++ if buffer = other then [.emit other] else [] := by
  unfold emitBuffer at h
  split at h <;> cases h
  simp only [story]
  split <;> simp_all [BufferEvent.concerns]

variable {buffers : List ℕ}

theorem releaseAll_spec (hnodup : buffers.Nodup) (w : WorkingBuffers V) :
    (w.releaseAll buffers).provided = w.provided ∧
    (∀ b, (w.releaseAll buffers).state b = if b ∈ buffers then .FREE else w.state b) ∧
    (∀ b, (w.releaseAll buffers).content b = if b ∈ buffers then none else w.content b) ∧
    ∀ b, (w.releaseAll buffers).story b = w.story b ++ if b ∈ buffers then [.release b] else [] := by
  induction buffers generalizing w with
  | nil => simp [releaseAll]
  | cons first buffers ih =>
    rw [nodup_cons] at hnodup
    obtain ⟨hprovided, hstate, hcontent, hstory⟩ := ih hnodup.2 (w.releaseBuffer first)
    have hfold : w.releaseAll (first :: buffers) = (w.releaseBuffer first).releaseAll buffers := rfl
    rw [hfold]
    refine ⟨hprovided, fun b => ?_, fun b => ?_, fun b => ?_⟩
    · rw [hstate, releaseBuffer]
      by_cases hb : b = first <;> simp [hb]
    · rw [hcontent, releaseBuffer]
      by_cases hb : b = first <;> simp [hb]
    · rw [hstory]
      by_cases hb : b = first
      · simp [hb, hnodup.1]
      · simp [hb]

theorem store_of_notMem (hb : buffer ∉ buffers) (content : ℕ → Option V) (values : List V) :
    store content buffers values buffer = content buffer := by
  induction buffers generalizing content values with
  | nil => rfl
  | cons first buffers ih =>
    cases values with
    | nil => rfl
    | cons value values =>
      rw [mem_cons, not_or] at hb
      rw [store, ih hb.2, update_of_ne hb.1]

variable {values : List V}

theorem store_getElem? (hnodup : buffers.Nodup) (content : ℕ → Option V) (hlength : values.length = buffers.length)
    {i : ℕ} (hi : buffers[i]? = some buffer) : store content buffers values buffer = values[i]? := by
  induction buffers generalizing content values i with
  | nil => cases hi
  | cons first buffers ih =>
    rw [nodup_cons] at hnodup
    cases values with
    | nil => cases hlength
    | cons value values =>
      rw [store]
      cases i with
      | zero =>
        simp only [getElem?_cons_zero, Option.some.injEq] at hi
        subst hi
        rw [store_of_notMem hnodup.1]
        simp
      | succ i => exact ih hnodup.2 _ (by simpa using hlength) hi

theorem process_spec {ins : List ℕ} (outs : List ℕ) (function : List V → List V)
    (hvalues : ins.mapM w.content = some values) :
    ∃ w', w.process ins outs function = some w' ∧ w'.provided = w.provided ∧ w'.state = w.state ∧
      w'.content = store w.content outs (function values) ∧
      ∀ b, w'.story b = w.story b ++ if b ∈ ins ∨ b ∈ outs then [.process ins outs] else [] := by
  refine ⟨{ w with content := store w.content outs (function values), log := w.log ++ [.process ins outs] },
    by rw [process, hvalues]; rfl, rfl, rfl, rfl, fun b => ?_⟩
  simp only [story]
  split <;> simp_all [BufferEvent.concerns]

/-- The output buffers are emitted, each one once, and all but the result are released. -/
theorem emitOutputs_spec (resultSlot i : ℕ) {outs : List ℕ} (hnodup : outs.Nodup)
    (hlocked : ∀ b ∈ outs, w.state b = .LOCKED) :
    ∃ w', emitOutputs resultSlot i outs w = .ok () w' ∧ w'.provided = w.provided ∧
      (∀ b ∉ outs, w'.state b = w.state b ∧ w'.content b = w.content b ∧ w'.story b = w.story b) ∧
      ∀ j b, outs[j]? = some b →
        w'.story b = w.story b ++ .emit b :: (if i + j = resultSlot then [] else [.release b]) ∧
        (i + j = resultSlot → w'.content b = w.content b) := by
  induction outs generalizing i w with
  | nil => exact ⟨w, rfl, rfl, fun _ _ => ⟨rfl, rfl, rfl⟩, fun j b h => (by simp at h)⟩
  | cons first outs ih =>
    rw [nodup_cons] at hnodup
    have hemit : ∃ w₁, w.emitBuffer first = some w₁ := by
      rw [emitBuffer, if_pos (hlocked first mem_cons_self)]
      exact ⟨_, rfl⟩
    obtain ⟨w₁, hemit⟩ := hemit
    have hstory₁ := story_emitBuffer hemit
    have hrest₁ : w₁.provided = w.provided ∧ w₁.content = w.content ∧
        ∀ b ≠ first, w₁.state b = w.state b := by
      rw [emitBuffer, if_pos (hlocked first mem_cons_self)] at hemit
      cases hemit
      exact ⟨rfl, rfl, fun b hb => update_of_ne hb _ _⟩
    obtain ⟨hprovided₁, hcontent₁, hstate₁⟩ := hrest₁
    -- the other buffers are not affected by what is done with the first one
    have hnext : ∃ w₂, (if i ≠ resultSlot then w₁.releaseBuffer first else w₁) = w₂ ∧
        w₂.provided = w.provided ∧
        (∀ b ≠ first, w₂.state b = w.state b ∧ w₂.content b = w.content b ∧ w₂.story b = w.story b) ∧
        w₂.story first = w.story first ++ .emit first :: (if i = resultSlot then [] else [.release first]) ∧
        (i = resultSlot → w₂.content first = w.content first) := by
      by_cases hi : i = resultSlot
      · refine ⟨w₁, by simp [hi], hprovided₁, fun b hb => ⟨hstate₁ b hb, by rw [hcontent₁], ?_⟩, ?_, ?_⟩
        · simp [hstory₁, hb]
        · simp [hstory₁, hi]
        · simp [hcontent₁]
      · refine ⟨w₁.releaseBuffer first, by simp [hi], hprovided₁, fun b hb => ⟨?_, ?_, ?_⟩,
          ?_, by simp [hi]⟩
        · simp [releaseBuffer, hb, hstate₁ b hb]
        · simp [releaseBuffer, hb, hcontent₁]
        · simp [hstory₁, hb]
        · simp [hstory₁, hi]
    obtain ⟨w₂, hw₂, hprovided₂, hsame₂, hstory₂, hcontent₂⟩ := hnext
    have hlocked₂ : ∀ b ∈ outs, w₂.state b = .LOCKED := by
      intro b hb
      have hne : b ≠ first := fun heq => hnodup.1 (heq ▸ hb)
      rw [(hsame₂ b hne).1]
      exact hlocked b (mem_cons_of_mem first hb)
    obtain ⟨w', hw', hprovided', hsame', houts'⟩ := @ih w₂ (i + 1) hnodup.2 hlocked₂
    refine ⟨w', ?_, hprovided'.trans hprovided₂, fun b hb => ?_, fun j b hj => ?_⟩
    · rw [emitOutputs, hemit]
      simp only [hw₂]
      exact hw'
    · rw [mem_cons, not_or] at hb
      obtain ⟨hstate, hcontent, hstory⟩ := hsame' b hb.2
      obtain ⟨hstate₂, hcontent₂, hstory₂⟩ := hsame₂ b hb.1
      exact ⟨hstate.trans hstate₂, hcontent.trans hcontent₂, hstory.trans hstory₂⟩
    · cases j with
      | zero =>
        simp only [getElem?_cons_zero, Option.some.injEq] at hj
        subst hj
        obtain ⟨-, hcontent, hstory⟩ := hsame' first hnodup.1
        exact ⟨hstory.trans hstory₂, fun hi => hcontent.trans (hcontent₂ hi)⟩
      | succ j =>
        have hne : b ≠ first := fun heq => hnodup.1 (heq ▸ mem_of_getElem? hj)
        obtain ⟨-, hcontent, hstory⟩ := hsame₂ b hne
        obtain ⟨hstory', hcontent'⟩ := houts' j b hj
        rw [Nat.add_right_comm] at hstory' hcontent'
        rw [← hstory, ← hcontent]
        exact ⟨hstory', hcontent'⟩

/-- **A function runs, the input buffers are released, and the output buffers emitted and released but for the
result.** -/
theorem run_spec {ins outs : List ℕ} (function : List V → List V) (resultSlot : ℕ)
    (hvalues : ins.mapM w.content = some values) (hins : ins.Nodup) (houts : outs.Nodup)
    (hdisjoint : ∀ b ∈ ins, b ∉ outs) (hlocked : ∀ b ∈ outs, w.state b = .LOCKED)
    (hlength : (function values).length = outs.length) :
    ∃ w₁ w', w.process ins outs function = some w₁ ∧
      (w₁.releaseAll ins).emitOutputs resultSlot 0 outs = .ok () w' ∧
      w'.provided = w.provided ∧
      (∀ b, b ∉ ins → b ∉ outs →
        w'.state b = w.state b ∧ w'.content b = w.content b ∧ w'.story b = w.story b) ∧
      (∀ b ∈ ins, w'.story b = w.story b ++ [.process ins outs, .release b]) ∧
      ∀ j b, outs[j]? = some b →
        w'.story b =
          w.story b ++ .process ins outs :: .emit b :: (if j = resultSlot then [] else [.release b]) ∧
        (j = resultSlot → w'.content b = (function values)[j]?) := by
  obtain ⟨w₁, hprocess, hprovided₁, hstate₁, hcontent₁, hstory₁⟩ := process_spec outs function hvalues
  obtain ⟨hprovided₂, hstate₂, hcontent₂, hstory₂⟩ := releaseAll_spec hins w₁
  have hlocked₂ : ∀ b ∈ outs, (w₁.releaseAll ins).state b = .LOCKED := by
    intro b hb
    have hnot : b ∉ ins := fun hmem => hdisjoint b hmem hb
    rw [hstate₂, if_neg hnot, hstate₁]
    exact hlocked b hb
  obtain ⟨w', hemit, hprovided', hsame', houts'⟩ := emitOutputs_spec resultSlot 0 houts hlocked₂
  refine ⟨w₁, w', hprocess, hemit, ?_, fun b hin hout => ?_, fun b hin => ?_, fun j b hj => ?_⟩
  · rw [hprovided', hprovided₂, hprovided₁]
  · obtain ⟨hstate, hcontent, hstory⟩ := hsame' b hout
    rw [hstate, hcontent, hstory, hstate₂, hcontent₂, hstory₂, hstory₁, hstate₁, hcontent₁,
      store_of_notMem hout]
    simp [hin, hout]
  · obtain ⟨-, -, hstory⟩ := hsame' b (hdisjoint b hin)
    rw [hstory, hstory₂, hstory₁]
    simp [hin]
  · have hmem := mem_of_getElem? hj
    have hnot : b ∉ ins := fun hin => hdisjoint b hin hmem
    obtain ⟨hstory, hcontent⟩ := houts' j b hj
    rw [Nat.zero_add] at hstory hcontent
    refine ⟨?_, fun hresult => ?_⟩
    · rw [hstory, hstory₂, hstory₁]
      simp [hnot, hmem]
    · rw [hcontent hresult, hcontent₂, if_neg hnot, hcontent₁, store_getElem? houts w.content hlength hj]

end WorkingBuffers

end Lumiera.Steam.Engine
