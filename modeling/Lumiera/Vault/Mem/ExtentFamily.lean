import Mathlib.Data.List.Rotate
import Lumiera.Base.Machine

/-! # Memory extents for cyclic usage (`vault/mem/extent-family.hpp`)

An `ExtentFamily` keeps a pool of storage extents in an array which is used cyclically: the extents
between the indices `start_` and `after_` are active, the others are held in reserve, and there is
always at least one of the latter. When the reserve does not suffice, new extents are added at the
end of the array; if the active ones wrap around there, the new ones are then rotated into the middle.

An extent is named by a number, in the order of allocation: it is the address of the storage, which
does not change when the management data is moved. The sequence of active extents, as seen by an
iteration, is a queue: `QueueStep` states what the operations do to it. -/

namespace Lumiera.Vault.Mem

/-- Number of excess new extents to add whenever new storage is required. -/
def EXCESS_ALLOC : Nat := 5

/-- Limit for the raw allocation, in bytes. -/
def ALLOC_SAFETY_LIMIT : Nat := 8 * 1024 * 1024 * 1024

/-- The management data; `sizeofExtent` is the storage size of a single extent. -/
structure ExtentFamily where
  sizeofExtent : Nat
  extents_ : List Nat
  start_ : Nat
  after_ : Nat
  deriving DecidableEq, Repr

/-- Exchange the ranges `[first, mid)` and `[mid, end)` (`std::rotate`). -/
def rotateRange (l : List Nat) (first mid : Nat) : List Nat :=
  l.take first ++ l.drop mid ++ (l.take mid).drop first

namespace ExtentFamily

/-- A pool of extents which are all marked unused. -/
def initial (sizeofExtent initialCnt : Nat) : ExtentFamily :=
  ⟨sizeofExtent, List.range initialCnt, 0, 0⟩

variable (exFam : ExtentFamily)

/-! ## Storage management -/

def empty : Bool := exFam.start_ = exFam.after_

def isWrapped : Bool := exFam.after_ < exFam.start_

def slotCnt : Nat := exFam.extents_.length

/-- Number of allocated slots actually used. -/
def activeSlotCnt : Nat :=
  if ¬ exFam.isWrapped then exFam.after_ - exFam.start_
  else (exFam.after_ - 0) + (exFam.slotCnt - exFam.start_)

def freeSlotCnt : Nat := exFam.slotCnt - exFam.activeSlotCnt

/-- One slot is kept in reserve, to allow for an unambiguous end of the iteration. -/
def canAccomodate (addCnt : Nat) : Bool := addCnt < exFam.freeSlotCnt

/-- Increment an index, but wrap at array end. -/
def incWrap (idx inc : Nat) : Nat := (idx + inc) % exFam.slotCnt

/-- The index denotes an active extent. -/
def isValidPos (idx : Nat) : Bool :=
  idx < exFam.slotCnt && 0 < exFam.activeSlotCnt &&
    if exFam.isWrapped then (exFam.start_ ≤ idx && idx < exFam.slotCnt) || idx < exFam.after_
    else exFam.start_ ≤ idx && idx < exFam.after_

def matchPos (idx address : Nat) : Bool := exFam.extents_[idx]? = some address

/-- Access the storage, which is required to be active. -/
def access (idx : Nat) : Option Nat := if exFam.isValidPos idx then exFam.extents_[idx]? else none

/-! ## Operations -/

/-- Add a strike of new extents, in the middle when the active ones are wrapped. -/
def grow (addSiz : Nat) : ExtentFamily :=
  let oldSiz := exFam.slotCnt
  let extents := exFam.extents_ ++ List.range' oldSiz addSiz
  if exFam.isWrapped then
    { exFam with
      extents_ := rotateRange extents exFam.start_ oldSiz
      start_ := exFam.start_ + addSiz }
  else
    { exFam with extents_ := extents }

/-- **Claim** the next `cnt` extents, possibly allocate; `none` when this raises an exception, either
due to the safety limit or because there is no `memory`, and then nothing is changed. Sizes so large
that the size calculation wraps around end in an exception or a failing assertion as well. -/
def openNew (cnt : Nat) (memory : Bool) : Option ExtentFamily :=
  if exFam.canAccomodate cnt then
    some { exFam with after_ := exFam.incWrap exFam.after_ cnt }
  else
    let addSiz := cnt - exFam.freeSlotCnt + EXCESS_ALLOC
    if (exFam.slotCnt + addSiz) * exFam.sizeofExtent > ALLOC_SAFETY_LIMIT ∨ ¬ memory then
      none
    else
      let grown := exFam.grow addSiz
      if grown.canAccomodate cnt then
        some { grown with after_ := grown.incWrap grown.after_ cnt }
      else
        none

/-- **Discard** the oldest `cnt` extents, which are required to be active. -/
def dropOld (cnt : Nat) : Option ExtentFamily :=
  if cnt ≤ exFam.activeSlotCnt then
    some { exFam with start_ := exFam.incWrap exFam.start_ cnt }
  else
    none

/-! ## Iteration, based on an index position -/

/-- There is an extent at this position (`IdxLink::checkPoint`). -/
def checkPoint (index : Nat) : Bool := index ≠ exFam.after_

/-- Advance to the next position (`IdxLink::iterNext`). -/
def iterNext (index : Nat) : Nat := exFam.incWrap index 1

/-- The extents seen by iterating from a position to the end, in at most `fuel` steps. -/
def iterate : Nat → Nat → Option (List Nat)
  | 0, _ => none
  | fuel + 1, index =>
    if exFam.checkPoint index then
      (exFam.access index).bind fun extent =>
        (iterate fuel (exFam.iterNext index)).map (extent :: ·)
    else
      some []

/-- The extents seen by iterating from `begin()` to `end()`. -/
def eachExtent : Option (List Nat) := exFam.iterate exFam.slotCnt exFam.start_

/-- Position of the latest extent opened, required to exist. -/
def last : Option Nat :=
  if exFam.empty then none else some (exFam.incWrap exFam.after_ (exFam.slotCnt - 1))

/-- Open further extents through an iterator, which is moved along with its segment
(`IdxLink::expandAlloc`). -/
def expandAlloc (index cnt : Nat) (memory : Bool) : Option (Nat × ExtentFamily) :=
  (exFam.openNew cnt memory).bind fun expanded =>
    let index := if index ≥ exFam.start_ then index + (expanded.start_ - exFam.start_) else index
    if expanded.isValidPos index then some (index, expanded) else none

/-- The search for the expected target, full circle back to the position where it started. -/
def searchTarget (knownTarget prevIdx : Nat) : Nat → Nat → Option Nat
  | 0, _ => none
  | fuel + 1, index =>
    let index := exFam.iterNext index
    if exFam.matchPos index knownTarget then some index
    else if index ≠ prevIdx then searchTarget knownTarget prevIdx fuel index
    else none

/-- Ensure that the position is in sync with the extent it should denote (`IdxLink::validatePos`);
`none` when this extent is unknown. -/
def validatePos (index knownTarget : Nat) : Option Nat :=
  if exFam.matchPos index knownTarget then some index
  else exFam.searchTarget knownTarget index exFam.slotCnt index

/-! ## Sequences of operations -/

/-- The operations of the pool. -/
inductive Call
  | openNew (cnt : Nat) (memory : Bool)
  | dropOld (cnt : Nat)
  deriving DecidableEq, Repr

/-- Perform an operation. There is no next state when an exception is raised, which leaves the pool as
it was. -/
def perform : ExtentFamily → Call → Option ExtentFamily
  | exFam, .openNew cnt memory => exFam.openNew cnt memory
  | exFam, .dropOld cnt => exFam.dropOld cnt

/-- The runs of a pool which was created with at least one extent. -/
def machine : Machine ExtentFamily Call where
  init exFam := ∃ sizeofExtent initialCnt, 0 < initialCnt ∧ exFam = initial sizeofExtent initialCnt
  step exFam call exFam' := perform exFam call = some exFam'

/-! ## The queue of active extents -/

/-- **What the operations do to the queue**: unused extents are appended at the back, or the oldest
ones are removed at the front. -/
inductive QueueStep (queue : List Nat) : Call → List Nat → Prop
  | appended (cnt : Nat) (memory : Bool) (unused : List Nat) (hlen : unused.length = cnt)
      (hnodup : unused.Nodup) (hunused : ∀ extent ∈ unused, extent ∉ queue) :
      QueueStep queue (.openNew cnt memory) (queue ++ unused)
  | removed (cnt : Nat) (hle : cnt ≤ queue.length) : QueueStep queue (.dropOld cnt) (queue.drop cnt)

/-- The active extents, oldest first. -/
def active : List Nat := (exFam.extents_.rotate exFam.start_).take exFam.activeSlotCnt

/-- **The pool is in order**: the indices are in range, and every extent allocated is kept at one
place of the array. -/
structure Valid : Prop where
  start_lt : exFam.start_ < exFam.slotCnt
  after_lt : exFam.after_ < exFam.slotCnt
  extents_perm : exFam.extents_.Perm (List.range exFam.slotCnt)

end ExtentFamily

end Lumiera.Vault.Mem
