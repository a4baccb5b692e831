import Mathlib.Data.Char
import Mathlib.Data.List.Lex
import Mathlib.Data.Prod.Lex
import Lumiera.Lib.QueryUtil

/-! # Query keys (`common/query.hpp`)

A query key combines the text of a query with the ID of its kind and result type, to be used for indexing
and ordering. The keys are ordered by the number of predicates in the text, then by the text and last by
the ID; this is a linear order. Yet the comparison for equality, like the hash value of the text, does not
agree with it: keys with the same text are equal, even when their IDs are different. -/

namespace Lumiera.Common

open Lib.Query (Text countPred predicates)

/-- `Goal::Kind` -/
inductive Kind
  | EMPTY | GENERIC | DISCOVERY | PLACEMENT
  deriving DecidableEq, Repr

/-- The value of the enumeration constant. -/
def Kind.value : Kind → ℕ
  | .EMPTY => 0
  | .GENERIC => 1
  | .DISCOVERY => 2
  | .PLACEMENT => 3

theorem Kind.value_injective : Function.Injective Kind.value := by
  intro k k' h
  cases k <;> cases k' <;> first | rfl | cases h

/-- `Goal::QueryID`; the type is an `IxID` -/
structure QueryID where
  kind : Kind
  type : ℕ
  deriving DecidableEq, Repr

def QueryID.lt (id1 id2 : QueryID) : Bool :=
  id1.kind.value < id2.kind.value || (id1.kind == id2.kind && id1.type < id2.type)

/-- A key, made from the ID and the text of a query. -/
structure QueryKey where
  id_ : QueryID
  def_ : Text
  deriving DecidableEq, Repr

namespace QueryKey

/-- The number of predicates, as an `uint`. -/
def degree (q : QueryKey) : ℕ := countPred q.def_

/-- `operator<` -/
def lt (q1 q2 : QueryKey) : Bool :=
  let d1 := q1.degree
  let d2 := q2.degree
  d1 < d2 || (d1 == d2 && (q1.def_ < q2.def_ || (q1.def_ == q2.def_ && q1.id_.lt q2.id_)))

/-- `operator==` -/
def eq (q1 q2 : QueryKey) : Bool := q1.def_ == q2.def_

/-- `hash_value`; the hash of a text and its combination with an ID are given. -/
def hash_value {σ : Type} (hash : Text → σ) (taggedHash : σ → QueryID → σ) (q : QueryKey) : σ :=
  taggedHash (hash q.def_) q.id_

/-! ## The order -/

/-- What the order of keys looks at, in this sequence. -/
def rank (q : QueryKey) : ℕ ×ₗ Text ×ₗ ℕ ×ₗ ℕ :=
  toLex (q.degree, toLex (q.def_, toLex (q.id_.kind.value, q.id_.type)))

theorem rank_injective : Function.Injective rank := by
  rintro ⟨⟨k, t⟩, q⟩ ⟨⟨k', t'⟩, q'⟩ h
  obtain ⟨-, h⟩ := Prod.mk.inj (toLex.injective h)
  obtain ⟨rfl, h⟩ := Prod.mk.inj (toLex.injective h)
  obtain ⟨hk, rfl⟩ := Prod.mk.inj (toLex.injective h)
  obtain rfl := Kind.value_injective hk
  rfl

/-- The keys are ordered linearly. -/
theorem lt_iff {q1 q2 : QueryKey} : q1.lt q2 = true ↔ q1.rank < q2.rank := by
  simp only [lt, rank, QueryID.lt, Prod.Lex.toLex_lt_toLex, Bool.or_eq_true, Bool.and_eq_true, decide_eq_true_eq,
    beq_iff_eq, Kind.value_injective.eq_iff]

theorem eq_iff {q1 q2 : QueryKey} : q1.eq q2 = true ↔ q1.def_ = q2.def_ := beq_iff_eq

/-! ## Order, equality and hash value -/

/-- How many predicates the text holds. -/
def constrictions (q : QueryKey) : ℕ := (predicates q.def_).length

theorem degree_eq (q : QueryKey) : q.degree = q.constrictions % 2 ^ 32 := Lib.Query.countPred_eq q.def_

variable {σ : Type} {hash : Text → σ} {taggedHash : σ → QueryID → σ} {a b : QueryKey}

/-- **Order, equality and hash value agree** for these keys. -/
structure Agrees (hash : Text → σ) (taggedHash : σ → QueryID → σ) (a b : QueryKey) : Prop where
  irreflexive : a.lt a = false
  transitive : ∀ c : QueryKey, a.lt b = true → b.lt c = true → a.lt c = true
  exactlyOne : a.lt b = true ∧ a.eq b = false ∧ b.lt a = false ∨
    a.lt b = false ∧ a.eq b = true ∧ b.lt a = false ∨ a.lt b = false ∧ a.eq b = false ∧ b.lt a = true
  sameHash : a.eq b = true → a.hash_value hash taggedHash = b.hash_value hash taggedHash
  degree : a.constrictions < b.constrictions → a.lt b = true

theorem lt_eq_false_iff {q1 q2 : QueryKey} : q1.lt q2 = false ↔ q2.rank ≤ q1.rank := by
  rw [← not_lt, ← lt_iff, Bool.not_eq_true]

theorem lt_iff_of_constrictions (h : a.constrictions ≠ b.constrictions) :
    a.lt b = true ↔ a.constrictions % 2 ^ 32 < b.constrictions % 2 ^ 32 ∨
      a.constrictions % 2 ^ 32 = b.constrictions % 2 ^ 32 ∧ a.def_ < b.def_ := by
  have hne : a.def_ ≠ b.def_ := by
    intro heq
    rw [constrictions, heq] at h
    exact h rfl
  rw [← degree_eq, ← degree_eq, lt_iff, rank, rank, Prod.Lex.toLex_lt_toLex, Prod.Lex.toLex_lt_toLex]
  simp only [hne, false_and, or_false]

/-- **Order, equality and hash value agree** just for keys which have the same ID when they have the same
text; while the number of predicates counts as long as it fits into an `uint`. -/
theorem orderAgrees_iff : Agrees hash taggedHash a b ↔ (a.def_ = b.def_ → a.id_ = b.id_) ∧
    (a.constrictions < b.constrictions → a.constrictions % 2 ^ 32 < b.constrictions % 2 ^ 32 ∨
      a.constrictions % 2 ^ 32 = b.constrictions % 2 ^ 32 ∧ a.def_ < b.def_) := by
  constructor
  · intro h
    have hid : a.def_ = b.def_ → a.id_ = b.id_ := by
      intro hdef
      have heq : a.eq b = true := eq_iff.mpr hdef
      rcases h.exactlyOne with ⟨-, hne, -⟩ | ⟨hab, -, hba⟩ | ⟨-, hne, -⟩
      · rw [heq] at hne
        cases hne
      · have hrank : a.rank = b.rank := le_antisymm (lt_eq_false_iff.mp hba) (lt_eq_false_iff.mp hab)
        rw [rank_injective hrank]
      · rw [heq] at hne
        cases hne
    exact ⟨hid, fun hlt => (lt_iff_of_constrictions hlt.ne).mp (h.degree hlt)⟩
  · rintro ⟨hid, hdegree⟩
    have hsame (hdef : a.def_ = b.def_) : a = b := by
      obtain ⟨id, q⟩ := a
      obtain rfl := hdef
      obtain rfl := hid rfl
      rfl
    refine ⟨lt_eq_false_iff.mpr le_rfl, fun c hab hbc => ?_, ?_, fun heq => ?_, fun hlt => ?_⟩
    · exact lt_iff.mpr ((lt_iff.mp hab).trans (lt_iff.mp hbc))
    · rw [← Bool.not_eq_true (a.eq b), eq_iff, lt_eq_false_iff, lt_eq_false_iff, lt_iff, lt_iff]
      rcases lt_trichotomy a.rank b.rank with hlt | heq | hlt
      · exact Or.inl ⟨hlt, fun hdef => absurd (hsame hdef ▸ hlt) (lt_irrefl _), hlt.le⟩
      · exact Or.inr (Or.inl ⟨heq.ge, by rw [rank_injective heq], heq.le⟩)
      · exact Or.inr (Or.inr ⟨hlt.le, fun hdef => absurd (hsame hdef ▸ hlt) (lt_irrefl _), hlt⟩)
    · rw [hsame (eq_iff.mp heq)]
    · exact (lt_iff_of_constrictions hlt.ne).mpr (hdegree hlt)

/-- Two kinds of query with the same text: the keys are equal, and nevertheless in order. -/
theorem not_agrees_kind : ¬ ∀ a b : QueryKey, Agrees (fun _ => ()) (fun _ _ => ()) a b := by
  intro h
  rcases (h ⟨⟨.GENERIC, 1⟩, "false".toList⟩ ⟨⟨.DISCOVERY, 1⟩, "false".toList⟩).exactlyOne with
    ⟨-, hne, -⟩ | ⟨hnot, -, -⟩ | ⟨hnot, -, -⟩
  · exact absurd hne (by decide)
  · exact absurd hnot (by decide)
  · exact absurd hnot (by decide)

end QueryKey

end Lumiera.Common
