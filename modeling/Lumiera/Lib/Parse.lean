import Mathlib.Algebra.Order.Ring.Nat
import Mathlib.Data.List.Infix
import Mathlib.Data.List.TakeWhile

/-! # Parser building blocks (`lib/parse.hpp`, `lib/regex.hpp`)

A parse function tests whether a text starts with some syntax. Its evaluation holds the result
model, when successful, and the number of characters consumed. Terminal symbols are accepted by a
regular expression, after skipping whitespace; a number of combinators build the parse functions for
compound syntax. The number of characters consumed is handed on as `size_t`, while at some places it
passes through a variable of type `uint`.

A product model is a tuple, to which each further clause adds a component; it is a pair here, with
the preceding ones in the first component. Sum models are represented in the same way. -/

namespace Lumiera.Lib.Parse

abbrev StrView := List Char

/-- A value which passes through a variable of type `uint`. -/
def uint (n : ℕ) : ℕ := n % 2 ^ 32

theorem uint_le (n : ℕ) : uint n ≤ n := Nat.mod_le n _

theorem uint_of_lt {n : ℕ} (h : n < 2 ^ 32) : uint n = n := Nat.mod_eq_of_lt h

/-! ## Regular expressions -/

/-- Whitespace characters in a regular expression. -/
def isSpace (c : Char) : Bool := c == ' ' || ('\t' ≤ c && c ≤ '\r')

/-- The number of leading whitespace characters. -/
def leadingWhitespace (toParse : StrView) : ℕ := (toParse.takeWhile isSpace).length

theorem leadingWhitespace_le (toParse : StrView) : leadingWhitespace toParse ≤ toParse.length :=
  (List.takeWhile_prefix isSpace).length_le

/-- A text of whitespace characters only. -/
def isBlank (toParse : StrView) : Bool := toParse.all isSpace

theorem leadingWhitespace_eq_length_iff (toParse : StrView) :
    leadingWhitespace toParse = toParse.length ↔ isBlank toParse = true := by
  have hstart := List.takeWhile_prefix isSpace (l := toParse)
  rw [isBlank, List.all_eq_true, ← List.takeWhile_eq_self_iff]
  exact ⟨hstart.eq_of_length, congrArg List.length⟩

/-- `std::smatch`: the text of each group, where the first one is the complete match. -/
structure SMatch where
  groups : List StrView
  deriving DecidableEq, Repr

namespace SMatch

/-- The text matched by a group, which is empty for a group not in the expression. -/
def str (mat : SMatch) (part : ℕ) : StrView := mat.groups.getD part []

def length (mat : SMatch) : ℕ := (mat.str 0).length

end SMatch

/-- A regular expression is given by what it matches at the start of a text. -/
structure Regex where
  matchAtStart : StrView → Option SMatch
  matched : ∀ {toParse : StrView} {mat : SMatch}, matchAtStart toParse = some mat → mat.str 0 <+: toParse

namespace Regex

/-- A regular expression without groups, by the length of the match. -/
def ofLength (len : StrView → Option ℕ) : Regex where
  matchAtStart toParse := (len toParse).map fun n => ⟨[toParse.take n]⟩
  matched {toParse mat} h := by
    obtain ⟨n, -, rfl⟩ := Option.map_eq_some_iff.mp h
    exact List.take_prefix n toParse

/-- A single character of a class. -/
def char (p : Char → Bool) : Regex := ofLength fun
  | [] => none
  | c :: _ => if p c then some 1 else none

/-- One or several characters of a class, as many as there are. -/
def run (p : Char → Bool) : Regex := ofLength fun toParse =>
  if toParse.takeWhile p = [] then none else some (toParse.takeWhile p).length

end Regex

/-! ## Parse functions -/

/-- The evaluation of a parse: the result model together with the number of characters consumed.
Without a result, nothing is consumed. -/
inductive Eval (RES : Type)
  | nullopt
  | result (model : RES) (consumed : ℕ)
  deriving DecidableEq, Repr

namespace Eval

variable {A B : Type}

def isSuccess : Eval A → Bool
  | nullopt => false
  | result _ _ => true

def consumed : Eval A → ℕ
  | nullopt => 0
  | result _ consumed => consumed

/-- Transform a successful evaluation. -/
def map (f : A → ℕ → B) (g : ℕ → ℕ) : Eval A → Eval B
  | nullopt => nullopt
  | result model consumed => result (f model consumed) (g consumed)

theorem map_eq_result_iff {f : A → ℕ → B} {g : ℕ → ℕ} {eval : Eval A} {model : B} {consumed : ℕ} :
    eval.map f g = result model consumed ↔ ∃ m n, eval = result m n ∧ f m n = model ∧ g n = consumed := by
  cases eval with
  | nullopt => simp [map]
  | result m n => simp [map]

end Eval

/-- **A parse function**, which has no evaluation for a text when it does not return. It never
consumes more than there is, and so the text behind the part consumed can be passed on. -/
@[ext]
structure Connex (RES : Type) where
  parse : StrView → Option (Eval RES)
  consumed_le : ∀ {toParse : StrView} {eval : Eval RES}, parse toParse = some eval →
    eval.consumed ≤ toParse.length

section Connex

variable {A B C : Type}

/-- `NulP`: always accepts the empty sequence. -/
def nullConnex : Connex Unit where
  parse _ := some (.result () 0)
  consumed_le h := by
    cases h
    exact Nat.zero_le _

/-- `Term`: accepts a terminal symbol, after skipping leading whitespace. -/
def termConnex (regEx : Regex) : Connex SMatch where
  parse toParse :=
    let pre := leadingWhitespace toParse
    match regEx.matchAtStart (toParse.drop pre) with
    | some mat => some (.result mat (pre + mat.length))
    | none => some .nullopt
  consumed_le {toParse eval} h := by
    have hpre := leadingWhitespace_le toParse
    dsimp only at h
    split at h
    · next mat hmatch =>
        cases h
        have hlength := (regEx.matched hmatch).length_le
        rw [List.length_drop] at hlength
        show leadingWhitespace toParse + (mat.str 0).length ≤ toParse.length
        omega
    · cases h
      exact Nat.zero_le _

/-- A parse function which transforms the model of another one. -/
def Connex.map (con : Connex A) (f : StrView → A → ℕ → B) : Connex B where
  parse toParse := (con.parse toParse).map fun eval => eval.map (f toParse) id
  consumed_le {toParse eval} h := by
    obtain ⟨eval', heval, rfl⟩ := Option.map_eq_some_iff.mp h
    have hle := con.consumed_le heval
    cases eval' with
    | nullopt => exact Nat.zero_le _
    | result model consumed => exact hle

/-- Apply a result-transforming function after a successful parse. -/
def adaptConnex (origConnex : Connex A) (binding : A → B) : Connex B :=
  origConnex.map fun _ model _ => binding model

/-- `toStringConnex`, for the match of a regular expression: the text of a group. -/
def toStringConnexGroup (baseConnex : Connex SMatch) (part : ℕ) : Connex StrView :=
  baseConnex.map fun _ mat _ => mat.str part

/-- The difference of two numbers of type `size_t`. -/
def sizeSub (n m : ℕ) : ℕ := (n + 2 ^ 64 - m) % 2 ^ 64

/-- `toStringConnex`, for any other model, which is ignored. -/
def toStringConnex (baseConnex : Connex A) : Connex StrView :=
  baseConnex.map fun toParse _ consumed =>
    let pre := leadingWhitespace toParse
    (toParse.drop pre).take (sizeSub consumed pre)

/-- Accept a sequence of two parse functions. -/
def sequenceConnex (conL : Connex A) (conR : Connex B) : Connex (A × B) where
  parse toParse := (conL.parse toParse).bind fun
    | .nullopt => some .nullopt
    | .result model1 posAfter1 =>
      (conR.parse (toParse.drop posAfter1)).map fun eval2 =>
        eval2.map (fun model2 _ => (model1, model2)) fun consumed2 => uint (posAfter1 + consumed2)
  consumed_le {toParse eval} h := by
    obtain ⟨eval1, heval1, h⟩ := Option.bind_eq_some_iff.mp h
    cases eval1 with
    | nullopt =>
      cases h
      exact Nat.zero_le _
    | result model1 posAfter1 =>
      obtain ⟨eval2, heval2, rfl⟩ := Option.map_eq_some_iff.mp h
      cases eval2 with
      | nullopt => exact Nat.zero_le _
      | result model2 consumed2 =>
        have hle : posAfter1 ≤ _ := conL.consumed_le heval1
        have hle' : consumed2 ≤ _ := conR.consumed_le heval2
        have huint := uint_le (posAfter1 + consumed2)
        rw [List.length_drop] at hle'
        show uint (posAfter1 + consumed2) ≤ toParse.length
        omega

/-- Accept either one of two alternative parse functions. -/
def branchedConnex (conL : Connex A) (conR : Connex B) : Connex (A ⊕ B) where
  parse toParse := (conL.parse toParse).bind fun
    | .result model endBranch1 => some (.result (.inl model) (uint endBranch1))
    | .nullopt => (conR.parse toParse).map fun eval2 => eval2.map (fun model _ => .inr model) uint
  consumed_le {toParse eval} h := by
    obtain ⟨eval1, heval1, h⟩ := Option.bind_eq_some_iff.mp h
    cases eval1 with
    | result model endBranch1 =>
      cases h
      exact Nat.le_trans (uint_le endBranch1) (conL.consumed_le heval1)
    | nullopt =>
      obtain ⟨eval2, heval2, rfl⟩ := Option.map_eq_some_iff.mp h
      cases eval2 with
      | nullopt => exact Nat.zero_le _
      | result model endBranch2 => exact Nat.le_trans (uint_le endBranch2) (conR.consumed_le heval2)

/-! ## Repetition -/

/-- Look for the delimiter within the sequence; the result is the offset behind it. -/
def repeatDelim (sep : Connex A) (within : Bool) (toParse : StrView) : Option (Eval Unit) :=
  if within then (sep.parse toParse).map fun delim => delim.map (fun _ _ => ()) uint else some (.result () 0)

/-- One round of a repetition: the delimiter, and then the body. The result is the model of the body
and the offset behind it. -/
def repeatRound (sep : Connex A) (body : Connex B) (within : Bool) (toParse : StrView) : Option (Eval B) :=
  (repeatDelim sep within toParse).bind fun
    | .nullopt => some .nullopt
    | .result _ offset => (body.parse (toParse.drop offset)).map fun eval =>
      eval.map (fun model _ => model) fun consumed => uint (offset + consumed)

/-- The repetition, with a limit on the number of further rounds. -/
def repeatLoop (sep : Connex A) (body : Connex B) : ℕ → Bool → StrView → Option (List B × ℕ)
  | 0, _, _ => some ([], 0)
  | rounds + 1, within, toParse => (repeatRound sep body within toParse).bind fun
      | .nullopt => some ([], 0)
      | .result model offset =>
        (repeatLoop sep body rounds true (toParse.drop offset)).map fun (results, consumed) =>
          (model :: results, offset + consumed)

variable {sep : Connex A} {within : Bool} {toParse : StrView}

theorem repeatDelim_le {eval : Eval Unit} (h : repeatDelim sep within toParse = some eval) :
    eval.consumed ≤ toParse.length := by
  unfold repeatDelim at h
  split at h
  · obtain ⟨delim, hdelim, rfl⟩ := Option.map_eq_some_iff.mp h
    cases delim with
    | nullopt => exact Nat.zero_le _
    | result model consumed => exact Nat.le_trans (uint_le consumed) (sep.consumed_le hdelim)
  · cases h
    exact Nat.zero_le _

variable {body : Connex B}

theorem repeatRound_le {eval : Eval B} (h : repeatRound sep body within toParse = some eval) :
    eval.consumed ≤ toParse.length := by
  obtain ⟨delim, hdelim, h⟩ := Option.bind_eq_some_iff.mp h
  have hstart := repeatDelim_le hdelim
  cases delim with
  | nullopt =>
    cases h
    exact Nat.zero_le _
  | result _ offset =>
    obtain ⟨eval', heval, rfl⟩ := Option.map_eq_some_iff.mp h
    cases eval' with
    | nullopt => exact Nat.zero_le _
    | result model consumed =>
      have hle : consumed ≤ _ := body.consumed_le heval
      have huint := uint_le (offset + consumed)
      have hoffset : offset ≤ toParse.length := hstart
      rw [List.length_drop] at hle
      show uint (offset + consumed) ≤ toParse.length
      omega

variable {results : List B} {rounds : ℕ}

theorem repeatLoop_le {consumed : ℕ}
    (h : repeatLoop sep body rounds within toParse = some (results, consumed)) : consumed ≤ toParse.length := by
  induction rounds generalizing within toParse results consumed with
  | zero =>
    cases h
    exact Nat.zero_le _
  | succ rounds ih =>
    obtain ⟨item, hround, h⟩ := Option.bind_eq_some_iff.mp h
    have hle := repeatRound_le hround
    cases item with
    | nullopt =>
      cases h
      exact Nat.zero_le _
    | result model offset =>
      obtain ⟨⟨results', consumed'⟩, hrest, heq⟩ := Option.map_eq_some_iff.mp h
      cases heq
      have hoffset : offset ≤ toParse.length := hle
      have hle' := ih hrest
      rw [List.length_drop] at hle'
      omega

/-- Repeatedly accept a parse function, with delimiters in between. There is at least one round. -/
def repeatedConnex (min max : ℕ) (sep : Connex A) (body : Connex B) : Connex (List B) where
  parse toParse := (repeatLoop sep body (Nat.max 1 max) false toParse).map fun (results, consumed) =>
    if results.length ≥ min then .result results consumed else .nullopt
  consumed_le {toParse eval} h := by
    obtain ⟨⟨results, consumed⟩, hloop, rfl⟩ := Option.map_eq_some_iff.mp h
    have hle := repeatLoop_le hloop
    dsimp only
    split
    · exact hle
    · exact Nat.zero_le _

/-- Try to accept a parse function, backtracking if not successful. -/
def optionalConnex (body : Connex A) : Connex (Option A) where
  parse toParse := (body.parse toParse).map fun
    | .nullopt => .result none 0
    | .result model consumed => .result (some model) consumed
  consumed_le {toParse eval} h := by
    obtain ⟨eval', heval, rfl⟩ := Option.map_eq_some_iff.mp h
    have hle := body.consumed_le heval
    cases eval' with
    | nullopt => exact Nat.zero_le _
    | result model consumed => exact hle

/-- Accept some structure enclosed into brackets, which can be omitted when `isOptional`. -/
def bracketedConnex (opening : Connex A) (closing : Connex B) (body : Connex C)
    (isOptional : Bool) : Connex C where
  parse toParse := (opening.parse toParse).bind fun bracket =>
    if bracket.isSuccess || isOptional then
      let expectClose := bracket.isSuccess
      (body.parse (toParse.drop bracket.consumed)).bind fun
        | .nullopt => some .nullopt
        | .result model consumed =>
          if expectClose then
            (closing.parse (toParse.drop (bracket.consumed + consumed))).map fun closed =>
              closed.map (fun _ _ => model) fun consumed' => bracket.consumed + consumed + consumed'
          else some (.result model (bracket.consumed + consumed + bracket.consumed))
    else some .nullopt
  consumed_le {toParse eval} h := by
    obtain ⟨bracket, hbracket, h⟩ := Option.bind_eq_some_iff.mp h
    have hopen := opening.consumed_le hbracket
    split at h
    · obtain ⟨eval', heval, h⟩ := Option.bind_eq_some_iff.mp h
      have hbody := body.consumed_le heval
      cases eval' with
      | nullopt =>
        cases h
        exact Nat.zero_le _
      | result model consumed =>
        have hconsumed : consumed ≤ _ := hbody
        rw [List.length_drop] at hconsumed
        cases bracket with
        | nullopt =>
          cases h
          simpa [Eval.consumed] using hconsumed
        | result _ consumedOpen =>
          obtain ⟨closed, hclosed, rfl⟩ := Option.map_eq_some_iff.mp h
          have hclose := closing.consumed_le hclosed
          rw [List.length_drop] at hclose
          have hopen' : consumedOpen ≤ toParse.length := hopen
          change consumed ≤ toParse.length - consumedOpen at hconsumed
          change _ ≤ toParse.length - (consumedOpen + consumed) at hclose
          cases closed with
          | nullopt => exact Nat.zero_le _
          | result _ consumed' =>
            change consumed' ≤ _ at hclose
            show consumedOpen + consumed + consumed' ≤ toParse.length
            omega
    · cases h
      exact Nat.zero_le _

/-! ## Successful evaluations -/

variable {toParse : StrView} {consumed : ℕ}

theorem Connex.map_parse_eq_result {con : Connex A} {f : StrView → A → ℕ → B} {model : B}
    (h : (con.map f).parse toParse = some (.result model consumed)) :
    ∃ m, con.parse toParse = some (.result m consumed) ∧ f toParse m consumed = model := by
  obtain ⟨eval, heval, h⟩ := Option.map_eq_some_iff.mp h
  obtain ⟨m, n, rfl, hmodel, rfl⟩ := Eval.map_eq_result_iff.mp h
  exact ⟨m, heval, hmodel⟩

theorem sequenceConnex_eq_result {conL : Connex A} {conR : Connex B} {model : A × B}
    (h : (sequenceConnex conL conR).parse toParse = some (.result model consumed)) :
    ∃ posAfter1 consumed2, conL.parse toParse = some (.result model.1 posAfter1) ∧
      conR.parse (toParse.drop posAfter1) = some (.result model.2 consumed2) ∧
      consumed = uint (posAfter1 + consumed2) := by
  obtain ⟨eval1, heval1, h⟩ := Option.bind_eq_some_iff.mp h
  cases eval1 with
  | nullopt => cases h
  | result model1 posAfter1 =>
    obtain ⟨eval2, heval2, h⟩ := Option.map_eq_some_iff.mp h
    obtain ⟨model2, consumed2, rfl, rfl, rfl⟩ := Eval.map_eq_result_iff.mp h
    exact ⟨posAfter1, consumed2, heval1, heval2, rfl⟩

theorem branchedConnex_eq_result {conL : Connex A} {conR : Connex B} {model : A ⊕ B}
    (h : (branchedConnex conL conR).parse toParse = some (.result model consumed)) :
    (∃ m n, conL.parse toParse = some (.result m n) ∧ consumed = uint n) ∨ conL.parse toParse = some .nullopt ∧ ∃ m n,
    conR.parse toParse = some (.result m n) ∧ consumed = uint n := by
  obtain ⟨eval1, heval1, h⟩ := Option.bind_eq_some_iff.mp h
  cases eval1 with
  | result m n =>
    cases h
    exact Or.inl ⟨m, n, heval1, rfl⟩
  | nullopt =>
    obtain ⟨eval2, heval2, h⟩ := Option.map_eq_some_iff.mp h
    obtain ⟨m, n, rfl, -, rfl⟩ := Eval.map_eq_result_iff.mp h
    exact Or.inr ⟨heval1, m, n, heval2, rfl⟩

theorem repeatedConnex_eq_result {min max : ℕ}
    (h : (repeatedConnex min max sep body).parse toParse = some (.result results consumed)) :
    min ≤ results.length ∧ repeatLoop sep body (Nat.max 1 max) false toParse = some (results, consumed) := by
  obtain ⟨⟨results', consumed'⟩, hloop, h⟩ := Option.map_eq_some_iff.mp h
  dsimp only at h
  split at h
  · next hmin =>
      cases h
      exact ⟨hmin, hloop⟩
  · cases h

theorem repeatLoop_eq_nil (h : repeatLoop sep body rounds within toParse = some ([], consumed)) : consumed = 0 := by
  cases rounds with
  | zero =>
    cases h
    rfl
  | succ rounds =>
    obtain ⟨item, -, h⟩ := Option.bind_eq_some_iff.mp h
    cases item with
    | nullopt =>
      cases h
      rfl
    | result model offset =>
      obtain ⟨rest, -, heq⟩ := Option.map_eq_some_iff.mp h
      cases heq

theorem repeatLoop_eq_cons
    {model : B}
    (h : repeatLoop sep body rounds within toParse = some (model :: results, consumed)) :
    ∃ rounds' offset consumed', rounds = rounds' + 1 ∧
      repeatRound sep body within toParse = some (.result model offset) ∧
      repeatLoop sep body rounds' true (toParse.drop offset) = some (results, consumed') ∧
      consumed = offset + consumed' := by
  cases rounds with
  | zero => cases h
  | succ rounds =>
    obtain ⟨item, hround, h⟩ := Option.bind_eq_some_iff.mp h
    cases item with
    | nullopt => cases h
    | result model' offset =>
      obtain ⟨⟨results', consumed'⟩, hrest, heq⟩ := Option.map_eq_some_iff.mp h
      cases heq
      exact ⟨rounds, offset, consumed', rfl, hround, hrest, rfl⟩

theorem bracketedConnex_eq_result {opening : Connex A} {closing : Connex B} {body : Connex C}
    {isOptional : Bool}
    {model : C} (h : (bracketedConnex opening closing body isOptional).parse toParse =
    some (.result model consumed)) :
    (∃ m n inner m' n', opening.parse toParse = some (.result m n) ∧
        body.parse (toParse.drop n) = some (.result model inner) ∧
        closing.parse (toParse.drop (n + inner)) = some (.result m' n') ∧ consumed = n + inner + n') ∨
      isOptional = true ∧ body.parse toParse = some (.result model consumed) := by
  obtain ⟨bracket, hbracket, h⟩ := Option.bind_eq_some_iff.mp h
  split at h
  · next hopen =>
      obtain ⟨eval, heval, h⟩ := Option.bind_eq_some_iff.mp h
      cases eval with
      | nullopt => cases h
      | result model' inner =>
        cases bracket with
        | nullopt =>
          cases h
          exact Or.inr ⟨hopen, by simpa [Eval.consumed] using heval⟩
        | result m n =>
          obtain ⟨closed, hclosed, h⟩ := Option.map_eq_some_iff.mp h
          obtain ⟨m', n', rfl, rfl, rfl⟩ := Eval.map_eq_result_iff.mp h
          exact Or.inl ⟨m, n, inner, m', n', hbracket, heval, hclosed, rfl⟩
  · cases h

end Connex

/-! ## The accepted part of the input as result (`lib/parse.hpp`)

With `bindMatch`, the model of a syntax is replaced by the part of the input which was accepted,
without the whitespace at its start. The amount of this whitespace is determined anew; it is
subtracted from the number of characters consumed, which are unsigned numbers. -/

variable {A : Type} {text : StrView} {consumed : ℕ}

/-- `Syntax::bindMatch`, for a model which is not the match of a regular expression. -/
def Syntax.bindMatch (parse_ : Connex A) : Connex StrView := toStringConnex parse_

/-- **The accepted part of the input**: what was consumed, without leading whitespace. -/
def acceptedPart (text : StrView) (consumed : ℕ) : StrView :=
  (text.take consumed).drop (min (leadingWhitespace text) consumed)

theorem sizeSub_eq {n m : ℕ} (hn : n < 2 ^ 63) (hm : m < 2 ^ 63) :
    sizeSub n m = if m ≤ n then n - m else 2 ^ 64 - (m - n) := by
  unfold sizeSub
  split_ifs <;> omega

theorem take_sizeSub_eq (hsize : text.length < 2 ^ 63) (hle : consumed ≤ text.length) :
    (text.drop (leadingWhitespace text)).take (sizeSub consumed (leadingWhitespace text)) =
      if leadingWhitespace text ≤ consumed then acceptedPart text consumed
      else text.drop (leadingWhitespace text) := by
  have hpre := leadingWhitespace_le text
  rw [sizeSub_eq (by omega) (by omega)]
  split_ifs with hskipped
  · rw [acceptedPart, min_eq_left hskipped, List.drop_take]
  · -- the count became larger than any text
    apply List.take_of_length_le
    rw [List.length_drop]
    omega

theorem bindMatch_eq (parse_ : Connex A) {model : A} (hsize : text.length < 2 ^ 63)
    (hparsed : parse_.parse text = some (.result model consumed)) :
    (Syntax.bindMatch parse_).parse text = some (.result (if leadingWhitespace text ≤ consumed then
      acceptedPart text consumed else text.drop (leadingWhitespace text)) consumed) := by
  have hresult : (Syntax.bindMatch parse_).parse text = some
      (.result ((text.drop (leadingWhitespace text)).take
      (sizeSub consumed (leadingWhitespace text))) consumed) := by
    show (parse_.parse text).map _ = _
    rw [hparsed]
    rfl
  have hle : consumed ≤ text.length := parse_.consumed_le hparsed
  rw [hresult, take_sizeSub_eq hsize hle]

/-- **The accepted part of the input is the result**, for an input of a size possible for strings,
exactly when all of the leading whitespace was consumed or there is nothing else in the input. -/
theorem bindMatch_iff (parse_ : Connex A) {model : A} (hsize : text.length < 2 ^ 63)
    (hparsed : parse_.parse text = some (.result model consumed)) :
    (Syntax.bindMatch parse_).parse text = some (.result (acceptedPart text consumed) consumed) ↔
      leadingWhitespace text ≤ consumed ∨ isBlank text = true := by
  have hpre := leadingWhitespace_le text
  rw [bindMatch_eq parse_ hsize hparsed, Option.some.injEq, Eval.result.injEq, and_iff_left rfl]
  split_ifs with hskipped
  · exact iff_of_true rfl (Or.inl hskipped)
  · rw [or_iff_right hskipped, ← leadingWhitespace_eq_length_iff, acceptedPart,
      min_eq_right (Nat.le_of_not_le hskipped), List.drop_take, Nat.sub_self, List.take_zero,
        List.drop_eq_nil_iff]
    exact ⟨fun h => Nat.le_antisymm hpre h, fun h => h.ge⟩

/-- Two letters behind whitespace. -/
theorem bindMatch_iff_letters :
    (Syntax.bindMatch (sequenceConnex (termConnex (.char (· == 'a'))) (termConnex (.char (· == 'b'))))).parse
        [' ', 'a', ' ', 'b', 'c'] = some (.result (acceptedPart [' ', 'a', ' ', 'b', 'c'] 4) 4) ↔
      leadingWhitespace [' ', 'a', ' ', 'b', 'c'] ≤ 4 ∨ isBlank [' ', 'a', ' ', 'b', 'c'] = true :=
  bindMatch_iff _ (by decide) (show _ =
    some (Eval.result ((⟨[['a']]⟩, ⟨[['b']]⟩) : SMatch × SMatch) 4) by decide)

/-- An optional letter which is not found: the result is another letter which was not accepted. -/
theorem not_bindMatch_optional :
    (optionalConnex (termConnex (.char (· == 'b')))).parse [' ', 'a'] = some (.result none 0) ∧
      (Syntax.bindMatch (optionalConnex (termConnex (.char (· == 'b'))))).parse [' ', 'a'] =
        some (.result ['a'] 0) ∧ acceptedPart [' ', 'a'] 0 = [] := by
  decide

end Lumiera.Lib.Parse
