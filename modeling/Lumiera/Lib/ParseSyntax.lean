import Lumiera.Lib.Parse
import Mathlib.Logic.Relation

/-! # Syntax clauses (`lib/parse.hpp`)

A syntax is built from clauses by the functions of the builder notation. For a recursive syntax, an
empty clause with the expected result is set up first, and may then be used in other clauses, even
in its own definition; later on the definition is assigned. Evaluating such a clause calls the parse
function defined for it, and thus may not return.

A syntax is left recursive when some clause can be called again from its own definition before
anything is consumed. This can be told from the clauses which are able to accept the empty sequence.
-/

namespace Lumiera.Lib.Parse

/-- **Clauses**, as built by the functions of the builder notation; `forward` refers to a clause
which is defined later. -/
inductive Clause {ι : Type} (Res : ι → Type) : Type → Type 1
  /-- `accept()` -/
  | null : Clause Res Unit
  /-- `accept (regex)` -/
  | term (regEx : Regex) : Clause Res SMatch
  /-- A clause set up with `expectResult()`. -/
  | forward (i : ι) : Clause Res (Res i)
  | bind {A B : Type} (clause : Clause Res A) (modelAdapt : A → B) : Clause Res B
  /-- `bindMatch`, for the match of a regular expression. -/
  | bindGroup (clause : Clause Res SMatch) (group : ℕ) : Clause Res StrView
  /-- `bindMatch`, for any other model. -/
  | bindMatch {A : Type} (clause : Clause Res A) : Clause Res StrView
  | seq {A B : Type} (clause : Clause Res A) (clauseDef : Clause Res B) : Clause Res (A × B)
  | alt {A B : Type} (clause : Clause Res A) (clauseDef : Clause Res B) : Clause Res (A ⊕ B)
  /-- `accept_repeated` -/
  | repeated {A B : Type} (min max : UInt32) (delimDef : Clause Res A) (clauseDef : Clause Res B) :
    Clause Res (List B)
  /-- `accept_opt` -/
  | opt {A : Type} (clauseDef : Clause Res A) : Clause Res (Option A)
  /-- `accept_bracket` -/
  | bracket {A B C : Type} (openDef : Clause Res A) (closeDef : Clause Res B) (bodyDef : Clause Res C)
      (isOptional : Bool) : Clause Res C

namespace Clause

variable {ι : Type} {Res : ι → Type}

/-- The parse function of a clause, with the parse functions assigned to the clauses it refers to. -/
def connex (resolve : ∀ i, Connex (Res i)) : {A : Type} → Clause Res A → Connex A
  | _, null => nullConnex
  | _, term regEx => termConnex regEx
  | _, forward i => resolve i
  | _, bind clause modelAdapt => adaptConnex (clause.connex resolve) modelAdapt
  | _, bindGroup clause group => toStringConnexGroup (clause.connex resolve) group
  | _, bindMatch clause => toStringConnex (clause.connex resolve)
  | _, seq clause clauseDef => sequenceConnex (clause.connex resolve) (clauseDef.connex resolve)
  | _, alt clause clauseDef => branchedConnex (clause.connex resolve) (clauseDef.connex resolve)
  | _, repeated min max delimDef clauseDef =>
    repeatedConnex min.toNat max.toNat (delimDef.connex resolve) (clauseDef.connex resolve)
  | _, opt clauseDef => optionalConnex (clauseDef.connex resolve)
  | _, bracket openDef closeDef bodyDef isOptional =>
    bracketedConnex (openDef.connex resolve) (closeDef.connex resolve) (bodyDef.connex resolve) isOptional

/-- **The clause can accept the empty sequence**, when this is so for these references. -/
def Nullable (refs : ι → Prop) : {A : Type} → Clause Res A → Prop
  | _, null => True
  | _, term regEx => ∃ text mat, regEx.matchAtStart text = some mat ∧ mat.length = 0
  | _, forward i => refs i
  | _, bind clause _ => clause.Nullable refs
  | _, bindGroup clause _ => clause.Nullable refs
  | _, bindMatch clause => clause.Nullable refs
  | _, seq clause clauseDef => clause.Nullable refs ∧ clauseDef.Nullable refs
  | _, alt clause clauseDef => clause.Nullable refs ∨ clauseDef.Nullable refs
  | _, repeated min _ _ clauseDef => min = 0 ∨ clauseDef.Nullable refs
  | _, opt _ => True
  | _, bracket openDef closeDef bodyDef isOptional =>
    bodyDef.Nullable refs ∧ (isOptional = true ∨ openDef.Nullable refs ∧ closeDef.Nullable refs)

/-- **The reference can be called first**, with nothing consumed by the clause so far. -/
def StartsWith (refs : ι → Prop) (i : ι) : {A : Type} → Clause Res A → Prop
  | _, null => False
  | _, term _ => False
  | _, forward j => j = i
  | _, bind clause _ => clause.StartsWith refs i
  | _, bindGroup clause _ => clause.StartsWith refs i
  | _, bindMatch clause => clause.StartsWith refs i
  | _, seq clause clauseDef => clause.StartsWith refs i ∨ clause.Nullable refs ∧ clauseDef.StartsWith refs i
  | _, alt clause clauseDef => clause.StartsWith refs i ∨ clauseDef.StartsWith refs i
  | _, repeated _ _ delimDef clauseDef =>
    clauseDef.StartsWith refs i ∨ clauseDef.Nullable refs ∧ delimDef.StartsWith refs i
  | _, opt clauseDef => clauseDef.StartsWith refs i
  | _, bracket openDef closeDef bodyDef isOptional =>
    openDef.StartsWith refs i ∨ (isOptional = true ∨ openDef.Nullable refs) ∧ bodyDef.StartsWith refs i ∨
      openDef.Nullable refs ∧ bodyDef.Nullable refs ∧ closeDef.StartsWith refs i

end Clause

/-- A syntax with the definitions of all clauses which are referred to. -/
structure Grammar where
  size : ℕ
  Res : Fin size → Type
  defs : ∀ i, Clause Res (Res i)

namespace Grammar

/-- The parse functions, with a limit on the depth of calls through references. -/
def resolve (g : Grammar) : ℕ → ∀ i, Connex (g.Res i)
  | 0, _ => ⟨fun _ => none, fun h => nomatch h⟩
  | depth + 1, i => (g.defs i).connex (resolve g depth)

variable (g : Grammar)

end Grammar

end Lumiera.Lib.Parse
