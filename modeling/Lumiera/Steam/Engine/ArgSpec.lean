import Lumiera.Base.Iteration
import Lumiera.Lib.ParseTermination
import Lumiera.Lib.ParseChunks

/-! # Argument lists of a node specification (`steam/engine/proc-node.cpp`)

The specification of a processing function lists the types of its arguments, as one or two lists of
terms in parentheses. A term is a sequence of plain content, escaped characters, quoted text and
bracketed text; the separating comma is thus protected by quotes and brackets. A trailing `/NUM`
indicates several arguments of the same kind. -/

namespace Lumiera.Steam.Engine

open Lib.Parse

/-! ## Terminal symbols -/

/-- The character matched by `.` -/
def isAnyChar (c : Char) : Bool := c != '\n' && c != '\r'

/-- The kinds of brackets. -/
inductive Bracket
  | round
  | angle
  | square
  | curly
  deriving DecidableEq, Repr

namespace Bracket

def ope : Bracket → Char
  | round => '('
  | angle => '<'
  | square => '['
  | curly => '\x7b'

def clo : Bracket → Char
  | round => ')'
  | angle => '>'
  | square => ']'
  | curly => '\x7d'

end Bracket

/-- The class of `SPEC_CONTENT`. -/
def isSpecContent (c : Char) : Bool :=
  c != ',' && c != '\\' && c != '"' && c != '(' && c != ')' && c != '[' && c != ']' && c != '\x7b' && c != '\x7d' &&
    c != '<' && c != '>'

/-- The class of `NON_QUOTE`. -/
def isNonQuote (c : Char) : Bool := c != '"' && c != '\\'

/-- The class of `NON_PAREN`. -/
def isNonParen (kind : Bracket) (c : Char) : Bool := c != '\\' && c != kind.ope && c != kind.clo

def SPEC_CONTENT : Regex := .run isSpecContent

def NON_QUOTE : Regex := .run isNonQuote

def ESCAPE : Regex := .ofLength fun
  | '\\' :: c :: _ => if isAnyChar c then some 2 else none
  | _ => none

def COMMA : Regex := .char (· == ',')

def D_QUOTE : Regex := .char (· == '"')

def NON_PAREN (kind : Bracket) : Regex := .run (isNonParen kind)

/-! ## The syntax -/

/-- The references to recursive syntax produce no model. -/
abbrev NoModel : Fin 4 → Type := fun _ => Unit

/-- An arbitrarily repeated clause, without delimiter. -/
def repeatedly {A : Type} (clauseDef : Clause NoModel A) : Clause NoModel (List A) :=
    .repeated 1 (-1) .null clauseDef

def quoted : Clause NoModel (List (SMatch ⊕ SMatch)) := repeatedly (.alt (.term NON_QUOTE) (.term ESCAPE))

def quote : Clause NoModel (List (SMatch ⊕ SMatch)) := .bracket (.term D_QUOTE) (.term D_QUOTE) quoted false

namespace Bracket

/-- The reference to the recursive syntax for this kind of brackets. -/
def index : Bracket → Fin 4
  | round => 0
  | angle => 1
  | square => 2
  | curly => 3

def ofIndex : Fin 4 → Bracket
  | 0 => round
  | 1 => angle
  | 2 => square
  | 3 => curly

theorem ofIndex_index (kind : Bracket) : ofIndex kind.index = kind := by
  cases kind <;> rfl

end Bracket

/-- The content in brackets; the brackets of this kind may be nested. -/
def parenContent (kind : Bracket) : Clause NoModel
    (List (((SMatch ⊕ SMatch) ⊕ List (SMatch ⊕ SMatch)) ⊕ Unit)) :=
  repeatedly (.alt (.alt (.alt (.term (NON_PAREN kind)) (.term ESCAPE)) quote) (.forward kind.index))

/-- `syntaxBracketed` -/
def syntaxBracketed (kind : Bracket) : Clause NoModel Unit :=
  .bind (.bracket (.term (.char (· == kind.ope))) (.term (.char (· == kind.clo)))
    (parenContent kind) false) fun _ => ()

/-- The recursive syntax is defined for each kind of brackets. -/
def nodeSpec : Grammar where
  size := 4
  Res := NoModel
  defs i := syntaxBracketed (.ofIndex i)

/-- The alternatives for a part of a term. -/
def specTermPart : Clause NoModel ((((((SMatch ⊕ SMatch) ⊕ List (SMatch ⊕ SMatch)) ⊕ Unit) ⊕ Unit) ⊕
    Unit) ⊕ Unit) :=
  .alt (.alt (.alt (.alt (.alt (.alt (.term SPEC_CONTENT) (.term ESCAPE)) quote)
    (.forward Bracket.round.index))
    (.forward Bracket.angle.index)) (.forward Bracket.square.index)) (.forward Bracket.curly.index)

def specTermSyntax : Clause NoModel StrView := .bindMatch (repeatedly specTermPart)

/-- `LUMIERA_MAX_ORDINAL_NUMBER / 2` -/
def MAX_NODE_ARG : UInt32 := 1000 / 2

def argListSyntax : Clause NoModel (List StrView) :=
  .bracket (.term (.char (· == '('))) (.term (.char (· == ')')))
    (.repeated 0 MAX_NODE_ARG (.term COMMA) specTermSyntax) false

def argSpecSyntax : Clause NoModel (List StrView × Option (List StrView)) :=
    .seq argListSyntax (.opt argListSyntax)

/-- Parse the argument lists. The depth of recursive calls is sufficient for the length of the text. -/
def parseArgLists (argLists : StrView) : Option (Eval (List StrView × Option (List StrView))) :=
  (argSpecSyntax.connex (nodeSpec.resolve (argLists.length * nodeSpec.size + nodeSpec.size))).parse argLists

/-! ## Repetition of arguments -/

/-- The text before and behind the last slash. -/
def splitLastSlash (text : StrView) : Option (StrView × StrView) :=
  match text.reverse.dropWhile (· != '/') with
  | [] => none
  | _ :: before => some (before.reverse, (text.reverse.takeWhile (· != '/')).reverse)

/-- Digits, followed by nothing but whitespace. -/
def digitsOf (text : StrView) : Option StrView :=
  let digits := text.takeWhile Char.isDigit
  if digits ≠ [] ∧ isBlank (text.dropWhile Char.isDigit) = true then some digits else none

/-- A complete match of `REPEAT_SPEC`; the groups are the term, which is as long as possible, and
the number. -/
def matchRepeatSpec (text : StrView) : Option (StrView × StrView) := do
  let (before, behind) ← splitLastSlash text
  let digits ← digitsOf behind
  -- the term is matched by `.+`, and just whitespace may follow
  let term := before.takeWhile isAnyChar
  if term ≠ [] ∧ isBlank (before.dropWhile isAnyChar) = true then some (term, digits) else none

/-- The number denoted by decimal digits. -/
def decimal (digits : StrView) : ℕ := digits.foldl (fun n c => 10 * n + (c.toNat - '0'.toNat)) 0

/-- `boost::lexical_cast<uint>`, with the failure when the number is too large. -/
def lexicalCast (digits : StrView) : Option ℕ :=
    if decimal digits < 2 ^ 32 then some (decimal digits) else none

/-- `RepetitionExpander`; from the match, only the first group is used. -/
structure RepetitionExpander where
  srcIter : List StrView
  repeat_ : ℕ := 0
  mat_ : StrView := []
  deriving DecidableEq, Repr

namespace RepetitionExpander

/-- The element, and the changed state. -/
def yield (expander : RepetitionExpander) : Option (StrView × RepetitionExpander) :=
  expander.srcIter.head?.bind fun src =>
    if expander.repeat_ = 0 then
      -- check if the next string ends with a repetition marker
      match matchRepeatSpec src with
      | none => some (src, expander)
      | some (term, digits) => (lexicalCast digits).map fun num =>
        (term, { expander with repeat_ := num, mat_ := term })
    else some (expander.mat_, expander)

/-- Hold the iteration until all repetitions were delivered. -/
def iterNext (expander : RepetitionExpander) : RepetitionExpander :=
  let repeat_ := if expander.repeat_ ≠ 0 then expander.repeat_ - 1 else expander.repeat_
  { expander with repeat_, srcIter := if repeat_ = 0 then expander.srcIter.tail else expander.srcIter }

/-- Each element is retrieved once before the next step. -/
def core : StateCore RepetitionExpander StrView where
  checkPoint expander := expander.srcIter ≠ []
  yield expander := expander.yield.map Prod.fst
  iterNext expander := expander.yield.map fun (_, expander) => expander.iterNext

end RepetitionExpander

/-- `evaluateArgSeq` collects these strings from the parsed terms. -/
def EvaluatesArgSeq (parsedArgTerms args : List StrView) : Prop :=
  RepetitionExpander.core.Delivers { srcIter := parsedArgTerms } args

/-- `ProcID::ArgModel`: the input and the output arguments. -/
structure ArgModel where
  iArg : List StrView
  oArg : List StrView
  deriving DecidableEq, Repr

/-- **`ProcID::genArgModel` delivers this model.** A single list specifies the output arguments. -/
def GeneratesArgModel (argLists : StrView) (model : ArgModel) : Prop :=
  match parseArgLists argLists with
  | some (.result (list1, some list2) _) => EvaluatesArgSeq list1 model.iArg ∧
    EvaluatesArgSeq list2 model.oArg
  | some (.result (list1, none) _) => model.iArg = [] ∧ EvaluatesArgSeq list1 model.oArg
  | _ => False

/-! ## Terms in the argument list of a node specification (`steam/engine/proc-node.cpp`)

A term is accepted by `specTermSyntax` when it is composed of plain content and of escaped, quoted
and bracketed text. Yet within brackets, a quote is an ordinary character, since it belongs to the
class `NON_PAREN` and this is tried ahead of `quote`; and there must be something within quotes or
brackets. -/

/-! ## The syntax as accepted -/

/-- An escaped character. -/
def Escaped (part : StrView) : Prop := ∃ c, isAnyChar c = true ∧ part = ['\\', c]

/-- What may be within brackets, besides plain characters: escaped characters, and brackets of the
same kind. -/
inductive WithinBrackets (kind : Bracket) : StrView → Prop
  | escaped {part : StrView} : Escaped part → WithinBrackets kind part
  | nested {part : StrView} :
      Enclosed kind.ope kind.clo (isNonParen kind) (WithinBrackets kind) part → WithinBrackets kind part

/-- Quoted text, where quotes and backslashes are escaped. -/
def Quoted : StrView → Prop := Enclosed '"' '"' isNonQuote Escaped

/-- Bracketed text. -/
def Bracketed (kind : Bracket) : StrView → Prop :=
    Enclosed kind.ope kind.clo (isNonParen kind) (WithinBrackets kind)

/-- What may be in a term, besides plain content. -/
def WithinTerm (part : StrView) : Prop := Escaped part ∨ Quoted part ∨ ∃ kind, Bracketed kind part

/-- **The text of a term which can be read back.** -/
structure Readable (text : StrView) : Prop where
  chunks : Chunks isSpecContent WithinTerm text
  ne_nil : text ≠ []
  head : ∀ c ∈ text.head?, isSpace c = false

/-! ## Characters -/

section Characters

variable {c x : Char}

theorem ne_of_isSpace (hc : isSpace c = true) (hx : isSpace x = false) : (c != x) = true := by
  refine bne_iff_ne.mpr fun heq => ?_
  rw [heq, hx] at hc
  exact Bool.noConfusion hc

theorem Bracket.isSpace_ope (kind : Bracket) : isSpace kind.ope = false := by
  cases kind <;> decide

theorem Bracket.isSpace_clo (kind : Bracket) : isSpace kind.clo = false := by
  cases kind <;> decide

theorem isNonQuote_of_isSpace (hc : isSpace c = true) : isNonQuote c = true :=
  Bool.and_eq_true_iff.mpr ⟨ne_of_isSpace hc rfl, ne_of_isSpace hc rfl⟩

theorem isNonParen_of_isSpace (kind : Bracket) (hc : isSpace c = true) : isNonParen kind c = true := by
  have hope := ne_of_isSpace hc kind.isSpace_ope
  have hclo := ne_of_isSpace hc kind.isSpace_clo
  have hescape : (c != '\\') = true := ne_of_isSpace hc rfl
  rw [isNonParen, hescape, hope, hclo]
  rfl

theorem isSpecContent_of_isSpace (hc : isSpace c = true) : isSpecContent c = true := by
  have hne : ∀ x, isSpace x = false → (c != x) = true := fun _ => ne_of_isSpace hc
  simp only [isSpecContent, hne _ (rfl : isSpace ',' = false), hne _ (rfl : isSpace '\\' = false),
    hne _ (rfl : isSpace '"' = false), hne _ (rfl : isSpace '(' = false), hne _ (rfl : isSpace ')' = false),
    hne _ (rfl : isSpace '[' = false), hne _ (rfl : isSpace ']' = false), hne _
      (rfl : isSpace '\x7b' = false),
    hne _ (rfl : isSpace '\x7d' = false), hne _ (rfl : isSpace '<' = false), hne _
      (rfl : isSpace '>' = false),
    Bool.and_self]

theorem isNonParen_ope (kind : Bracket) : isNonParen kind kind.ope = false := by
  cases kind <;> decide

theorem isNonParen_clo (kind : Bracket) : isNonParen kind kind.clo = false := by
  cases kind <;> decide

theorem isSpecContent_ope (kind : Bracket) : isSpecContent kind.ope = false := by
  cases kind <;> decide

end Characters

theorem separated_quoted : Separated isNonQuote Escaped where
  space := isNonQuote_of_isSpace
  special := by
    rintro part ⟨c, -, rfl⟩
    exact ⟨'\\', [c], rfl, by decide⟩

theorem separated_brackets (kind : Bracket) : Separated (isNonParen kind) (WithinBrackets kind) where
  space := isNonParen_of_isSpace kind
  special := by
    rintro part (⟨c, -, rfl⟩ | ⟨-, -, -⟩)
    · exact ⟨'\\', [c], rfl, by cases kind <;> decide⟩
    · exact ⟨_, _, rfl, isNonParen_ope kind⟩

theorem separated_term : Separated isSpecContent WithinTerm where
  space := isSpecContent_of_isSpace
  special := by
    rintro part (⟨c, -, rfl⟩ | ⟨-, -, -⟩ | ⟨kind, ⟨-, -, -⟩⟩)
    · exact ⟨'\\', [c], rfl, by decide⟩
    · exact ⟨_, _, rfl, by decide⟩
    · exact ⟨_, _, rfl, isSpecContent_ope kind⟩

/-! ## Readable terms are accepted -/

variable {depth : ℕ} {kind : Bracket}

section Accepted

variable {ws part rest : StrView} {c : Char}

theorem acceptsAt_escape (hws : isBlank ws = true) (hpart : Escaped part) :
    AcceptsAt (termConnex ESCAPE) (ws ++ (part ++ rest)) (ws.length + part.length) := by
  obtain ⟨c, hc, rfl⟩ := hpart
  have hmatch : ESCAPE.matchAtStart ('\\' :: c :: rest) = some ⟨[['\\', c]]⟩ :=
    Option.map_eq_some_iff.mpr ⟨2, if_pos hc, rfl⟩
  exact acceptsAt_term hws (by decide) hmatch

theorem rejects_escape (hws : isBlank ws = true) (hc : isSpace c = false) (hne : c ≠ '\\') :
    Rejects (termConnex ESCAPE) (ws ++ c :: rest) := by
  apply rejects_term hws hc
  refine Option.map_eq_none_iff.mpr ?_
  dsimp only
  split
  · next heq =>
      cases heq
      exact absurd rfl hne
  · rfl

/-- The parse function for the content of quotes. -/
def quotedConnex : Connex (SMatch ⊕ SMatch) := branchedConnex (termConnex NON_QUOTE) (termConnex ESCAPE)

theorem accepts_quoted (limit : ℕ) : Accepts quotedConnex isNonQuote Escaped limit where
  run hws hc hspace hlt := (acceptsAt_run (fun _ => isNonQuote_of_isSpace) hws hspace hc).branched_left hlt
  special {ws part rest} hws hpart _ hlt := by
    have hescape : AcceptsAt (termConnex ESCAPE) (ws ++ (part ++ rest)) (ws.length + part.length) :=
      acceptsAt_escape hws hpart
    have hnone : Rejects (termConnex NON_QUOTE) (ws ++ (part ++ rest)) := by
      obtain ⟨c, -, rfl⟩ := hpart
      exact rejects_run hws (by decide) (by decide)
    exact AcceptsAt.branched_right hnone hescape hlt

theorem rejects_quoted (hws : isBlank ws = true) : Rejects quotedConnex (ws ++ '"' :: rest) :=
  Rejects.branched (rejects_run hws (by decide) (by decide)) (rejects_escape hws (by decide) (by decide))

variable {resolve : ∀ i, Connex (NoModel i)}

theorem acceptsAt_quote (hws : isBlank ws = true) (hpart : Quoted part)
    (hlt : (ws ++ (part ++ rest)).length < 2 ^ 32) :
    AcceptsAt (quote.connex resolve) (ws ++ (part ++ rest)) (ws.length + part.length) := by
  have hlength : part.length < 2 ^ 32 := by
    rw [List.length_append, List.length_append] at hlt
    omega
  exact acceptsAt_enclosed separated_quoted (accepts_quoted part.length) (by decide)
    (by decide) rejects_quoted hpart hws
    (Nat.le_succ _) (show part.length ≤ 2 ^ 32 - 1 by omega) hlt

theorem rejects_quote (hws : isBlank ws = true) (hc : isSpace c = false) (hne : c ≠ '"') :
    Rejects (quote.connex resolve) (ws ++ c :: rest) :=
  Rejects.bracketed (rejects_char hws hc (beq_false_of_ne hne))

theorem rejects_brackets (hws : isBlank ws = true) (hc : isSpace c = false)
    (hne : c ≠ kind.ope) : Rejects (nodeSpec.resolve (depth + 1) kind.index) (ws ++ c :: rest) := by
  have hreject : Rejects ((syntaxBracketed kind).connex (nodeSpec.resolve depth)) (ws ++ c :: rest) :=
    Rejects.map (Rejects.bracketed (rejects_char hws hc (beq_false_of_ne hne)))
  rw [← Bracket.ofIndex_index kind] at hreject
  exact hreject

/-- The parse function for the content of brackets. -/
def bracketsConnex (kind : Bracket) (depth : ℕ) :
    Connex (((SMatch ⊕ SMatch) ⊕ List (SMatch ⊕ SMatch)) ⊕ NoModel kind.index) :=
  branchedConnex (branchedConnex (branchedConnex (termConnex (NON_PAREN kind)) (termConnex ESCAPE))
    (quote.connex (nodeSpec.resolve depth))) (nodeSpec.resolve depth kind.index)

theorem rejects_bracketContent (hws : isBlank ws = true) :
    Rejects (bracketsConnex kind (depth + 1)) (ws ++ kind.clo :: rest) := by
  have hspace := kind.isSpace_clo
  have hescape : kind.clo ≠ '\\' := by cases kind <;> decide
  have hquote : kind.clo ≠ '"' := by cases kind <;> decide
  have hope : kind.clo ≠ kind.ope := by cases kind <;> decide
  exact Rejects.branched (Rejects.branched (Rejects.branched (rejects_run hws hspace (isNonParen_clo kind))
    (rejects_escape hws hspace hescape)) (rejects_quote hws hspace hquote)) (rejects_brackets hws hspace hope)

theorem acceptsAt_resolve
    (hcontent : Accepts (bracketsConnex kind (depth + 1)) (isNonParen kind) (WithinBrackets kind) depth)
    (hws : isBlank ws = true) (hpart : Bracketed kind part) (hlimit : part.length ≤ depth + 1)
    (hlt : (ws ++ (part ++ rest)).length < 2 ^ 32) :
    AcceptsAt (nodeSpec.resolve (depth + 2) kind.index) (ws ++ (part ++ rest)) (ws.length + part.length) := by
  have hlength : part.length < 2 ^ 32 := by
    rw [List.length_append, List.length_append] at hlt
    omega
  have haccept := acceptsAt_enclosed (separated_brackets kind) hcontent kind.isSpace_ope (isNonParen_clo kind)
    rejects_bracketContent hpart hws hlimit (show part.length ≤ 2 ^ 32 - 1 by omega) hlt
  have hdef : AcceptsAt ((syntaxBracketed kind).connex (nodeSpec.resolve (depth + 1))) (ws ++ (part ++ rest))
      (ws.length + part.length) := AcceptsAt.map haccept
  rw [← Bracket.ofIndex_index kind] at hdef
  exact hdef

/-- The content of brackets is accepted, when calls can be nested as deep as the text is long. -/
theorem accepts_brackets (kind : Bracket) (depth : ℕ) :
    Accepts (bracketsConnex kind (depth + 1)) (isNonParen kind) (WithinBrackets kind) depth := by
  induction depth with
  | zero =>
    constructor
    · intro ws rest c hws hc hspace hlt
      exact ((acceptsAt_run (fun _ => isNonParen_of_isSpace kind) hws hspace hc).branched_left
        hlt).branched_left hlt
        |>.branched_left hlt
    · intro ws part rest hws hpart hlimit
      obtain ⟨c, cs, rfl, -⟩ := (separated_brackets kind).special hpart
      cases hlimit
  | succ depth ih =>
    constructor
    · intro ws rest c hws hc hspace hlt
      exact ((acceptsAt_run (fun _ => isNonParen_of_isSpace kind) hws hspace hc).branched_left
        hlt).branched_left hlt
        |>.branched_left hlt
    · intro ws part rest hws hpart hlimit hlt
      cases hpart with
      | escaped hescaped =>
        have hescape : AcceptsAt (termConnex ESCAPE) (ws ++ (part ++ rest)) (ws.length + part.length) :=
          acceptsAt_escape hws hescaped
        have hnone : Rejects (termConnex (NON_PAREN kind)) (ws ++ (part ++ rest)) := by
          obtain ⟨c, -, rfl⟩ := hescaped
          exact rejects_run hws (by decide) (by cases kind <;> decide)
        exact ((AcceptsAt.branched_right hnone hescape hlt).branched_left hlt).branched_left hlt
      | nested hnested =>
        have haccept := acceptsAt_resolve ih hws hnested hlimit hlt
        refine AcceptsAt.branched_right ?_ haccept hlt
        -- the first character is the opening bracket
        obtain ⟨-, -, -⟩ := hnested
        have hspace := kind.isSpace_ope
        have hescape : kind.ope ≠ '\\' := by cases kind <;> decide
        have hquote : kind.ope ≠ '"' := by cases kind <;> decide
        exact Rejects.branched (Rejects.branched (rejects_run hws hspace (isNonParen_ope kind))
          (rejects_escape hws hspace hescape)) (rejects_quote hws hspace hquote)

/-- The parse function for plain content, escaped characters and quoted text. -/
def contentConnex (depth : ℕ) : Connex ((SMatch ⊕ SMatch) ⊕ List (SMatch ⊕ SMatch)) :=
  branchedConnex (branchedConnex (termConnex SPEC_CONTENT) (termConnex ESCAPE))
    (quote.connex (nodeSpec.resolve depth))

/-- Brackets of some kind as a further alternative. -/
def altBrackets {A : Type} (con : Connex A) (depth : ℕ) (kind : Bracket) : Connex (A ⊕ Unit) :=
  branchedConnex con (nodeSpec.resolve depth kind.index)

/-- The parse function for the parts of a term. -/
def partConnex (depth : ℕ) : Connex ((((((SMatch ⊕ SMatch) ⊕ List (SMatch ⊕ SMatch)) ⊕ Unit) ⊕ Unit)
    ⊕ Unit) ⊕ Unit) :=
  altBrackets (altBrackets (altBrackets
    (altBrackets (contentConnex depth) depth .round) depth .angle) depth .square) depth
    .curly

section AltBrackets

variable {A : Type} {con : Connex A} {depth n : ℕ} {kind : Bracket} {text : StrView}

theorem acceptsAt_altBrackets_left (depth : ℕ) (kind : Bracket) (h : AcceptsAt con text n)
    (hlt : text.length < 2 ^ 32) : AcceptsAt (altBrackets con depth kind) text n := h.branched_left hlt

theorem acceptsAt_altBrackets_right (hleft : Rejects con text)
    (h : AcceptsAt (nodeSpec.resolve depth kind.index) text n)
    (hlt : text.length < 2 ^ 32) : AcceptsAt (altBrackets con depth kind) text n :=
    AcceptsAt.branched_right hleft h hlt

theorem rejects_altBrackets (hleft : Rejects con text) (h : Rejects (nodeSpec.resolve depth kind.index) text) :
    Rejects (altBrackets con depth kind) text := hleft.branched h

end AltBrackets

theorem acceptsAt_part_of_content {n : ℕ} {text : StrView} (h : AcceptsAt (contentConnex depth) text n)
    (hlt : text.length < 2 ^ 32) : AcceptsAt (partConnex depth) text n := by
  have hround := acceptsAt_altBrackets_left depth .round h hlt
  have hangle := acceptsAt_altBrackets_left depth .angle hround hlt
  have hsquare := acceptsAt_altBrackets_left depth .square hangle hlt
  exact acceptsAt_altBrackets_left depth .curly hsquare hlt

/-- The parts of a term are accepted. -/
theorem accepts_term (depth : ℕ) : Accepts (partConnex (depth + 2)) isSpecContent WithinTerm depth := by
  constructor
  · intro ws rest c hws hc hspace hlt
    apply acceptsAt_part_of_content _ hlt
    exact ((acceptsAt_run (fun _ => isSpecContent_of_isSpace) hws hspace hc).branched_left
      hlt).branched_left hlt
  · intro ws part rest hws hpart hlimit hlt
    rcases hpart with hescaped | hquoted | ⟨kind, hbracketed⟩
    · have hescape : AcceptsAt (termConnex ESCAPE) (ws ++ (part ++ rest)) (ws.length + part.length) :=
        acceptsAt_escape hws hescaped
      have hnone : Rejects (termConnex SPEC_CONTENT) (ws ++ (part ++ rest)) := by
        obtain ⟨c, -, rfl⟩ := hescaped
        exact rejects_run hws (by decide) (by decide)
      apply acceptsAt_part_of_content _ hlt
      exact (AcceptsAt.branched_right hnone hescape hlt).branched_left hlt
    · have hquote : AcceptsAt (quote.connex (nodeSpec.resolve (depth + 2))) (ws ++ (part ++ rest))
          (ws.length + part.length) := acceptsAt_quote hws hquoted hlt
      have hnone : Rejects (branchedConnex (termConnex SPEC_CONTENT) (termConnex ESCAPE))
          (ws ++ (part ++ rest)) := by
        obtain ⟨-, -, -⟩ := hquoted
        exact Rejects.branched (rejects_run hws (by decide) (by decide))
          (rejects_escape hws (by decide) (by decide))
      apply acceptsAt_part_of_content _ hlt
      exact AcceptsAt.branched_right hnone hquote hlt
    · have haccept := acceptsAt_resolve (accepts_brackets kind depth) hws hbracketed
        (Nat.le_succ_of_le hlimit) hlt
      have hcontent : Rejects (contentConnex (depth + 2)) (ws ++ (part ++ rest)) := by
        obtain ⟨-, -, -⟩ := hbracketed
        have hspace := kind.isSpace_ope
        have hescape : kind.ope ≠ '\\' := by cases kind <;> decide
        have hquote : kind.ope ≠ '"' := by cases kind <;> decide
        exact Rejects.branched (Rejects.branched (rejects_run hws hspace (isSpecContent_ope kind))
          (rejects_escape hws hspace hescape)) (rejects_quote hws hspace hquote)
      have hother : ∀ other : Bracket, kind.ope ≠ other.ope →
          Rejects (nodeSpec.resolve (depth + 2) other.index) (ws ++ (part ++ rest)) := by
        intro other hne
        obtain ⟨-, -, -⟩ := hbracketed
        exact rejects_brackets hws kind.isSpace_ope hne
      -- the kinds of brackets are tried one after the other
      cases kind with
      | round =>
        have hround := acceptsAt_altBrackets_right hcontent haccept hlt
        have hangle := acceptsAt_altBrackets_left (depth + 2) .angle hround hlt
        have hsquare := acceptsAt_altBrackets_left (depth + 2) .square hangle hlt
        exact acceptsAt_altBrackets_left (depth + 2) .curly hsquare hlt
      | angle =>
        have hround := rejects_altBrackets hcontent (hother .round (by decide))
        have hangle := acceptsAt_altBrackets_right hround haccept hlt
        have hsquare := acceptsAt_altBrackets_left (depth + 2) .square hangle hlt
        exact acceptsAt_altBrackets_left (depth + 2) .curly hsquare hlt
      | square =>
        have hround := rejects_altBrackets hcontent (hother .round (by decide))
        have hangle := rejects_altBrackets hround (hother .angle (by decide))
        have hsquare := acceptsAt_altBrackets_right hangle haccept hlt
        exact acceptsAt_altBrackets_left (depth + 2) .curly hsquare hlt
      | curly =>
        have hround := rejects_altBrackets hcontent (hother .round (by decide))
        have hangle := rejects_altBrackets hround (hother .angle (by decide))
        have hsquare := rejects_altBrackets hangle (hother .square (by decide))
        exact acceptsAt_altBrackets_right hsquare haccept hlt

end Accepted

/-! ## Only readable terms are accepted -/

theorem yields_escape : Yields (termConnex ESCAPE) fun text =>
    ∃ ws part, text = ws ++ part ∧ isBlank ws = true ∧ Escaped part := by
  apply yields_term
  intro text mat hmatch _
  obtain ⟨n, hn, rfl⟩ := Option.map_eq_some_iff.mp hmatch
  dsimp only at hn
  split at hn
  · next c rest _ =>
      obtain ⟨hc, heq⟩ := Option.ite_none_right_eq_some.mp hn
      cases heq
      exact ⟨c, hc, rfl⟩
  · cases hn

theorem yields_quoted : Yields quotedConnex fun text => Chunks isNonQuote Escaped text ∧ text ≠ [] :=
  (yields_run Escaped).branched (yields_escape.special separated_quoted fun _ h => h)

theorem yields_quote (resolve : ∀ i, Connex (NoModel i)) : Yields (quote.connex resolve) fun text =>
    ∃ ws part, text = ws ++ part ∧ isBlank ws = true ∧ Quoted part :=
  yields_enclosed yields_quoted

/-- **Within brackets, quoted text is never recognised**, since the quote is taken as an ordinary
character. -/
theorem yields_bracketContent
    (hnested : Yields (nodeSpec.resolve depth kind.index) fun text =>
      ∃ ws part, text = ws ++ part ∧ isBlank ws = true ∧ Bracketed kind part) :
    Yields (bracketsConnex kind depth) fun text => Chunks (isNonParen kind)
      (WithinBrackets kind) text ∧ text ≠ [] := by
  have hescape := yields_escape.special (separated_brackets kind) fun _ => WithinBrackets.escaped
  refine Yields.branched (Yields.branched_of_rejects ((yields_run _).branched hescape) ?_)
    (hnested.special (separated_brackets kind) fun _ => WithinBrackets.nested)
  intro text model n hlt hnone hquote
  obtain ⟨ws, part, htake, hws, hpart⟩ := yields_quote _ text model n hlt hquote
  obtain ⟨-, -, -⟩ := hpart
  -- the run of ordinary characters begins with the quote
  have htext := List.take_append_drop n text
  rw [htake, List.append_assoc] at htext
  have hrun : AcceptsAt (termConnex (NON_PAREN kind)) text _ :=
    htext ▸ acceptsAt_run (fun _ => isNonParen_of_isSpace kind) hws (by decide) (by cases kind <;> decide)
  have hleft : AcceptsAt (branchedConnex (termConnex (NON_PAREN kind)) (termConnex ESCAPE)) text _ :=
    hrun.branched_left hlt
  obtain ⟨m, haccept⟩ := hleft
  cases hnone.symm.trans haccept

theorem yields_resolve (kind : Bracket) (depth : ℕ) : Yields (nodeSpec.resolve depth kind.index) fun text =>
    ∃ ws part, text = ws ++ part ∧ isBlank ws = true ∧ Bracketed kind part := by
  induction depth with
  | zero =>
    intro text model n _ hparse
    cases hparse
  | succ depth ih =>
    have hdef : Yields ((syntaxBracketed kind).connex (nodeSpec.resolve depth)) fun text =>
        ∃ ws part, text = ws ++ part ∧ isBlank ws = true ∧ Bracketed kind part :=
      Yields.map (yields_enclosed (yields_bracketContent ih))
    show Yields ((syntaxBracketed (.ofIndex kind.index)).connex (nodeSpec.resolve depth)) _
    rw [Bracket.ofIndex_index]
    exact hdef

/-- The parts of a term which are accepted. -/
theorem yields_part (depth : ℕ) :
    Yields (partConnex depth) fun text => Chunks isSpecContent WithinTerm text ∧ text ≠ [] := by
  have hescape := yields_escape.special separated_term fun _ => Or.inl
  have hquote := (yields_quote (nodeSpec.resolve depth)).special separated_term fun _ h => Or.inr (Or.inl h)
  have hbrackets := fun kind => (yields_resolve kind depth).special separated_term fun _ h => Or.inr
      (Or.inr ⟨kind, h⟩)
  have hcontent : Yields (contentConnex depth) _ := ((yields_run WithinTerm).branched hescape).branched hquote
  exact (((hcontent.branched (hbrackets .round)).branched (hbrackets .angle)).branched
    (hbrackets .square)).branched
    (hbrackets .curly)

end Lumiera.Steam.Engine
