import Lumiera.Lib.Parse

/-! # Repetition in the builder notation (`lib/parse.hpp`)

There are free functions to start a syntax with a repeated clause, and builder functions to add a
repeated clause to a syntax. The latter delegate to the former, but pass the clause in place of the
delimiter. Whether this makes a difference depends on how the text can continue behind a repeated
item. -/

namespace Lumiera.Lib.Parse

section Builder

variable {A B S : Type}

namespace Syntax

/-- `Syntax::seq` -/
def seq (parse_ : Connex S) (clauseDef : Connex B) : Connex (S × B) := sequenceConnex parse_ clauseDef

end Syntax

end Builder

section Agreement

variable {A B : Type} {sep : Connex A} {body : Connex B} {text rest : StrView} {n k : ℕ}

/-- The same results, and the same number of characters consumed, as seen after it passed through `uint`. -/
def SameItems (x y : Option (List B × ℕ)) : Prop :=
  x.map (fun (results, consumed) => (results, uint consumed)) =
    y.map fun (results, consumed) => (results, uint consumed)

theorem SameItems.tail {x y : Option (List B × ℕ)} {model : B} {offset : ℕ}
    (h : SameItems (x.map fun (results, consumed) => (model :: results, offset + consumed))
      (y.map fun (results, consumed) => (model :: results, offset + consumed))) : SameItems x y := by
  unfold SameItems at *
  cases x with
  | none =>
    cases y with
    | none => rfl
    | some y => simp at h
  | some x =>
    cases y with
    | none => simp at h
    | some y =>
      simp only [Option.map_some, Option.some.injEq, Prod.mk.injEq, List.cons.injEq, true_and] at h ⊢
      unfold uint at *
      exact ⟨h.1, by omega⟩

end Agreement

end Lumiera.Lib.Parse
