import Mathlib.Data.List.Basic
import Lumiera.Base.Seamless

/-! # The »Split-Splice« algorithm (`lib/split-splice.hpp`)

The algorithm integrates a new segment into a seamless segmentation, thereby truncating, splitting
or replacing adjacent segments. It is generic in the axis and in the elementary operations on
segments, which are passed as functors (`Binding`). Iterators are positions in the segment list,
and the position after the end is the length of the list. A result `none` stands for a failed
assertion, when these are compiled in (`checked`), and for an access beyond the end. -/

namespace Lumiera.Lib.SplitSplice

/-- The functors bound by the client, and what they are expected to do within the axis. -/
structure Binding (ORD SEG PAY : Type) [LinearOrder ORD] extends
    Carving ORD SEG PAY where
  /-- Functor to build the new segment. -/
  createSeg : ORD → ORD → SEG
  /-- Functor to build an empty segment. -/
  emptySeg : ORD → ORD → SEG
  /-- What the new segment carries. -/
  newPayload : PAY
  start_createSeg : ∀ a b, lo ≤ a → a ≤ b → b ≤ hi → start (createSeg a b) = a
  after_createSeg : ∀ a b, lo ≤ a → a ≤ b → b ≤ hi → after (createSeg a b) = b
  payload_createSeg : ∀ a b, payload (createSeg a b) = newPayload

/-- How to deal with the predecessor or the successor of the new segment. -/
inductive Verb
  | NIL
  | DROP
  | TRUNC
  | INS_NOP
  | SEAMLESS
  deriving DecidableEq, Repr

/-- Working state after establishing the split point. -/
structure SplitPoint (ORD : Type) where
  pred : Nat
  succ : Nat
  /-- Definitive start of the new segment (`b_.start`). -/
  start : ORD
  /-- Definitive end of the new segment (`b_.after`). -/
  after : ORD

/-- The verbs for both sides, together with the possibly moved successor. -/
structure Relations where
  opPred : Verb
  opSucc : Verb
  succ : Nat

/-- The reworked segments, and where changes happened. -/
structure Spliced (SEG : Type) where
  segments : List SEG
  /-- The first changed element. -/
  s : Nat
  /-- The new main segment. -/
  n : Nat
  /-- The first unaltered element after the changed range. -/
  e : Nat

/-- `REQUIRE`, `ENSURE` and `ASSERT`: without effect unless `checked`. -/
def ensure (checked : Bool) (cond : Prop) [Decidable cond] : Option Unit :=
  if checked ∧ ¬ cond then none else some ()

namespace Binding

variable {ORD SEG PAY : Type} [LinearOrder ORD]
variable (B : Binding ORD SEG PAY)

/-- Find the largest predecessor with a start before the separator: the loop over `succ_`. -/
def seek (sep : ORD) : List SEG → Nat → Nat → Nat × Nat
  | [], pred, succ => (pred, succ)
  | seg :: segs, pred, succ =>
    if B.start seg < sep then seek sep segs succ (succ + 1) else (pred, succ)

/-- Nominal break point. -/
def separator (start after : Option ORD) : ORD :=
  match start, after with
  | some s, _ => s
  | none, some a => a
  | none, none => B.hi

/-- First part of Stage-1: the positions of the predecessor and the successor of the separator. -/
def locate (checked : Bool) (segs : List SEG) (sep : ORD) : Option (Nat × Nat) := do
  let afterAll := segs.length
  let (pred₀, succ₀) := B.seek sep segs afterAll 0
  ensure checked (pred₀ ≠ succ₀)
  let succ := if succ₀ = afterAll then pred₀ else succ₀
  -- separator touches bounds
  let pred := if pred₀ = afterAll then succ else pred₀
  return (pred, succ)

/-- Start of the new segment, when not specified. -/
def inferStart (sep : ORD) (predSeg : SEG) : ORD :=
  if B.after predSeg < sep then B.after predSeg else B.start predSeg

/-- End of the new segment, when not specified. -/
def inferAfter (sep : ORD) (succSeg : SEG) : ORD :=
  if sep < B.start succSeg then B.start succSeg else B.after succSeg

/-- Stage-1 and Stage-2: the insert point, and the actual bounds of the new segment. -/
def establishSplitPoint (checked : Bool) (segs : List SEG) (start after : Option ORD) :
    Option (SplitPoint ORD) := do
  let sep := B.separator start after
  let (pred, succ) ← B.locate checked segs sep
  let predSeg ← segs[pred]?
  let succSeg ← segs[succ]?
  let startSeg := start.getD (B.inferStart sep predSeg)
  let afterSeg := after.getD (B.inferAfter sep succSeg)
  ensure checked (startSeg ≠ afterSeg)
  if startSeg < afterSeg then
    return ⟨pred, succ, startSeg, afterSeg⟩
  else
    return ⟨pred, succ, afterSeg, startSeg⟩

/-- The postcondition of the constructor, checked on the split point it has established. -/
def construct (checked : Bool) (segs : List SEG) (start after : Option ORD) :
    Option (SplitPoint ORD) := do
  let p ← B.establishSplitPoint checked segs start after
  let predSeg ← segs[p.pred]?
  let succSeg ← segs[p.succ]?
  ensure checked (p.start < p.after)
  ensure checked (B.start predSeg ≤ p.start)
  ensure checked (p.start ≤ B.start succSeg ∨ p.pred = p.succ)
  return p

/-- Skip the segments which end before the given bound. -/
def skipSpanned (bound : ORD) : List SEG → Nat → Option Nat
  | [], _ => none
  | seg :: segs, i => if B.after seg < bound then skipSpanned bound segs (i + 1) else some i

/-- Second part of Stage-3: the relation to the successor. -/
def relateSuccessor (checked : Bool) (segs : List SEG) (p : SplitPoint ORD) :
    Option (Verb × Nat) := do
  let succSeg ← segs[p.succ]?
  if B.start succSeg < p.after then
    let succ ← B.skipSpanned p.after (segs.drop p.succ) p.succ
    let succSeg ← segs[succ]?
    ensure checked (B.start succSeg < p.after)
    if p.after = B.after succSeg then return (.DROP, succ)
    else if p.after < B.after succSeg then return (.TRUNC, succ)
    else return (.NIL, succ)
  else if p.after = B.start succSeg then return (.SEAMLESS, p.succ)
  else return (.INS_NOP, p.succ)

/-- Stage-3: the precise relation of the predecessor and successor segments. -/
def determineRelations (checked : Bool) (segs : List SEG) (p : SplitPoint ORD) :
    Option Relations := do
  let predSeg ← segs[p.pred]?
  if B.start predSeg < p.start then
    if B.after predSeg < p.start then
      let (opSucc, succ) ← B.relateSuccessor checked segs p
      return ⟨.INS_NOP, opSucc, succ⟩
    else if B.after predSeg = p.start then
      let (opSucc, succ) ← B.relateSuccessor checked segs p
      return ⟨.SEAMLESS, opSucc, succ⟩
    else if p.after < B.after predSeg then
      -- predecessor actually spans the new segment
      return ⟨.TRUNC, .TRUNC, p.pred⟩
    else
      let (opSucc, succ) ← B.relateSuccessor checked segs p
      return ⟨.TRUNC, opSucc, succ⟩
  else
    ensure checked (B.start predSeg = p.start)
    if p.after < B.after predSeg then
      -- predecessor coincides with the start, thus use it rather as successor
      return ⟨.DROP, .TRUNC, p.pred⟩
    else
      let (opSucc, succ) ← B.relateSuccessor checked segs p
      return ⟨.DROP, opSucc, succ⟩

/-- Insert position; a predecessor which is retained is not part of the range to be dropped. -/
def insPos (opPred : Verb) (pred : Nat) : Nat :=
  if opPred = .INS_NOP ∨ opPred = .SEAMLESS then pred + 1 else pred

/-- End of the range to be dropped, which includes a superseded successor. -/
def dropEnd (opSucc : Verb) (succ : Nat) : Nat :=
  if opSucc = .DROP ∨ opSucc = .TRUNC then succ + 1 else succ

/-- Possibly adapt the predecessor. -/
def adaptPred (p : SplitPoint ORD) (refPred : SEG) : Verb → List SEG
  | .INS_NOP => [B.emptySeg (B.after refPred) p.start]
  | .TRUNC => [B.trunc (B.start refPred) p.start refPred]
  | _ => []

/-- Possibly adapt the successor. -/
def adaptSucc (p : SplitPoint ORD) (refSucc : SEG) : Verb → List SEG
  | .INS_NOP => [B.emptySeg p.after (B.start refSucc)]
  | .TRUNC => [B.trunc p.after (B.after refSucc) refSucc]
  | _ => []

/-- Stage-4: insert the new elements before the range to be dropped, then discard this range. -/
def performSplitSplice (checked : Bool) (segs : List SEG) (p : SplitPoint ORD) (rel : Relations) :
    Option (Spliced SEG) := do
  let refPred ← segs[p.pred]?
  let refSucc ← segs[rel.succ]?
  ensure checked (rel.opPred ≠ .NIL ∧ rel.opSucc ≠ .NIL)
  let front := B.adaptPred p refPred rel.opPred
  let back := B.adaptSucc p refSucc rel.opSucc
  let insPos := insPos rel.opPred p.pred
  let dropEnd := dropEnd rel.opSucc rel.succ
  -- erasing a reversed range is undefined
  guard (insPos ≤ dropEnd)
  return {
    segments := segs.take insPos ++ front ++
      B.createSeg p.start p.after :: (back ++ segs.drop dropEnd)
    s := insPos
    n := insPos + front.length
    e := insPos + front.length + 1 + back.length }

/-- The complete operation, as the client invokes it. -/
def splitSplice (checked : Bool) (segs : List SEG) (start after : Option ORD) :
    Option (Spliced SEG) := do
  let p ← B.construct checked segs start after
  let rel ← B.determineRelations checked segs p
  B.performSplitSplice checked segs p rel

end Binding

end Lumiera.Lib.SplitSplice
