import Lumiera.Base.Pattern
import Lumiera.Lib.Parse

/-! # Fields of a CSV line (`lib/stat/csv.hpp`)

A line of CSV data is split into fields by a regular expression, which accepts one field together with
the delimiter in front of it, and an iterator over the matches, which insists that each match begins
just where the preceding one ended.

What the fields of a line are is also given by a grammar (`Line`). A line can be taken apart in one way
only: each text begins with a field, and the line goes on behind the delimiter which follows. -/

namespace Lumiera.Lib.Stat

open List

open Parse (isSpace)

abbrev Text := List Char

/-! ## Exceptions -/

/-- The exceptions raised (`lib/error.hpp`). -/
inductive ErrorKind
  | invalid | logic | state | config
  deriving DecidableEq, Repr

structure Error where
  kind : ErrorKind
  text : Text
  deriving DecidableEq, Repr

/-- `util::_Fmt`: the marks within a text are replaced by the arguments, in this order. -/
def fmt : Text → List Text → Text
  | '%' :: _ :: format, arg :: args => arg ++ fmt format args
  | c :: format, args => c :: fmt format args
  | [], _ => []

/-- `error::Invalid` with a formatted text. -/
def Error.invalid (format : String) (args : List Text) : Error := ⟨.invalid, fmt format.toList args⟩

/-- The decimal notation of a number. -/
def decimal (n : ℕ) : Text := Nat.toDigits 10 n

/-! ## The regular expression -/

def isDelimiter (c : Char) : Bool := c == ',' || c == ';'

/-- `[^"]` -/
def isUnquoted (c : Char) : Bool := c != '"'

/-- `[^,;"\s]` -/
def isTokenChar (c : Char) : Bool := !(isDelimiter c || c == '"' || isSpace c)

/-- `([^,;"\s]*)\s*`, in the complete expression the second group -/
def matchSingleToken : Pattern := .seq (.group 2 (.many isTokenChar)) (.many isSpace)

/-- `"([^"]*)"\s*` -/
def matchQuotedToken : Pattern :=
  .seq (.one (· == '"')) (.seq (.group 1 (.many isUnquoted)) (.seq (.one (· == '"')) (.many isSpace)))

/-- `(?:^|,|;)\s*` -/
def matchDelimiter : Pattern :=
  .seq (.alt .start (.alt (.one (· == ',')) (.one (· == ';')))) (.many isSpace)

/-- One field, with the delimiter in front of it. -/
def acceptField : Pattern := .seq matchDelimiter (.alt matchQuotedToken matchSingleToken)

/-! ## The parser -/

/-- `CsvParser`: an iterator over the fields of a line. -/
structure CsvParser where
  curr : Pattern.SearchIter
  line_ : Text
  field_ : ℕ
  pos_ : ℕ

/-- The content of a field: the single token, or otherwise what was quoted. -/
def fieldContent (groups : Pattern.Groups) : Text := (groups 2).getD ((groups 1).getD [])

namespace CsvParser

def ofLine (line : Text) : CsvParser := ⟨.begin acceptField line, line, 0, 0⟩

/-- There is a match and it is located where the preceding one ended. The results of a match found, which are
checked in addition, are never without the complete match. -/
def isValid (csv : CsvParser) : Bool :=
  match csv.curr.current with
  | none => false
  | some mat => csv.pos_ == mat.position

def isParseFail (csv : CsvParser) : Bool := csv.curr.current.isSome && !csv.isValid

/-- The exception raised by `fail()`. -/
def failure (csv : CsvParser) : Error :=
  match csv.curr.current with
  | none =>
    if csv.line_.length ≤ csv.pos_ then
      .invalid "Only %d data fields. Line:%s" [decimal csv.field_, csv.line_]
    else
      .invalid "Garbage after last field. Line:%s|↯|%s" [csv.line_.take csv.pos_, csv.line_.drop csv.pos_]
  | some mat =>
    if csv.pos_ ≠ mat.position then
      .invalid "Garbage before field(%d):%s|↯|%s"
        [decimal (csv.field_ + 1), csv.line_.take csv.pos_, csv.line_.drop csv.pos_]
    else .invalid "CSV parse floundered. Line:%s" [csv.line_]

/-- `operator*` -/
def field (csv : CsvParser) : Except Error Text :=
  match csv.curr.current with
  | none => .error csv.failure
  | some mat => if csv.isValid then .ok (fieldContent mat.groups) else .error csv.failure

/-- `operator++` -/
def next (csv : CsvParser) : Except Error CsvParser :=
  match csv.curr.current with
  | none => .error csv.failure
  | some mat =>
    if csv.isValid then
      let csv' : CsvParser := { csv with pos_ := mat.position + mat.length, curr := csv.curr.next }
      if csv'.pos_ < csv'.line_.length && !csv'.isValid then .error csv'.failure
      else .ok { csv' with field_ := csv.field_ + 1 }
    else .error csv.failure

end CsvParser

/-! ## The grammar -/

/-- **A field**, with its content: it may be quoted, and is surrounded by blanks. -/
inductive Field : Text → Text → Prop
  | quoted {before content after : Text} (hbefore : ∀ c ∈ before, isSpace c = true)
      (hcontent : ∀ c ∈ content, isUnquoted c = true) (hafter : ∀ c ∈ after, isSpace c = true) :
      Field (before ++ '"' :: (content ++ '"' :: after)) content
  | token {before content after : Text} (hbefore : ∀ c ∈ before, isSpace c = true)
      (hcontent : ∀ c ∈ content, isTokenChar c = true) (hafter : ∀ c ∈ after, isSpace c = true) :
      Field (before ++ (content ++ after)) content

/-- **A line** is a sequence of fields with delimiters in between. -/
inductive Line : Text → List Text → Prop
  | last {s content : Text} (hfield : Field s content) : Line s [content]
  | more {s content rest : Text} {d : Char} {fields : List Text} (hfield : Field s content)
      (hd : isDelimiter d = true) (hrest : Line rest fields) : Line (s ++ d :: rest) (content :: fields)

/-- A quoted field at the start of a text: the content and what follows. -/
def quotedField : Text → Option (Text × Text)
  | [] => none
  | c :: s =>
    if c == '"' then
      match s.dropWhile isUnquoted with
      | [] => none
      | _ :: rest => some (s.takeWhile isUnquoted, rest.dropWhile isSpace)
    else none

/-- A single token at the start of a text: the content and what follows. -/
def tokenField (s : Text) : Text × Text :=
    (s.takeWhile isTokenChar, (s.dropWhile isTokenChar).dropWhile isSpace)

/-- **The field at the start of a text**: the content and what follows. -/
def leadingField (s : Text) : Text × Text :=
  (quotedField (s.dropWhile isSpace)).getD (tokenField (s.dropWhile isSpace))

/-! ### The classes of characters -/

theorem isSpace_eq_false_of_isDelimiter {d : Char} (hd : isDelimiter d = true) : isSpace d = false := by
  obtain hd | hd := Bool.or_eq_true_iff.mp hd
  · rw [eq_of_beq hd]
    decide
  · rw [eq_of_beq hd]
    decide

theorem isTokenChar_eq_false_of_isDelimiter {d : Char} (hd : isDelimiter d = true) : isTokenChar d = false := by
  simp [isTokenChar, hd]

theorem isTokenChar_eq_false_of_isSpace {c : Char} (hc : isSpace c = true) : isTokenChar c = false := by
  simp [isTokenChar, hc]

theorem beq_quote_of_isDelimiter {d : Char} (hd : isDelimiter d = true) : (d == '"') = false := by
  obtain hd | hd := Bool.or_eq_true_iff.mp hd
  · rw [eq_of_beq hd]
    decide
  · rw [eq_of_beq hd]
    decide

theorem isTokenChar_iff {c : Char} :
    isTokenChar c = true ↔ isDelimiter c = false ∧ (c == '"') = false ∧ isSpace c = false := by
  simp [isTokenChar, and_assoc]

/-- What follows after a field: the end of the line, or a delimiter. -/
def AtDelimiter (rest : Text) : Prop := ∀ d ∈ rest.head?, isDelimiter d = true

variable {p : Char → Bool} {s : Text}

theorem takeWhile_of_head (h : ∀ x ∈ s.head?, p x = false) : s.takeWhile p = [] := by
  cases s with
  | nil => rfl
  | cons x s => simp [h x rfl]

theorem dropWhile_of_head (h : ∀ x ∈ s.head?, p x = false) : s.dropWhile p = s := by
  cases s with
  | nil => rfl
  | cons x s => simp [h x rfl]

theorem head_dropWhile (p : Char → Bool) (s : Text) : ∀ x ∈ (s.dropWhile p).head?, p x = false := by
  induction s with
  | nil => simp
  | cons c s ih =>
    by_cases hc : p c = true
    · rwa [dropWhile_cons_of_pos hc]
    · rw [dropWhile_cons_of_neg hc]
      simpa using hc

theorem dropWhile_blanks {after rest : Text} (hafter : ∀ c ∈ after, isSpace c = true) (hrest : AtDelimiter rest) :
    (after ++ rest).dropWhile isSpace = rest := by
  rw [dropWhile_append_of_pos hafter]
  exact dropWhile_of_head fun d hd => isSpace_eq_false_of_isDelimiter (hrest d hd)

/-! ### The field at the start of a text -/

theorem quotedField_of_head (h : ∀ x ∈ s.head?, (x == '"') = false) : quotedField s = none := by
  cases s with
  | nil => rfl
  | cons x s => simp [quotedField, h x rfl]

variable {content : Text}

theorem quotedField_quoted (hcontent : ∀ c ∈ content, isUnquoted c = true) (rest : Text) :
    quotedField ('"' :: (content ++ '"' :: rest)) = some (content, rest.dropWhile isSpace) := by
  have hquote : isUnquoted '"' = false := rfl
  have hdrop : (content ++ '"' :: rest).dropWhile isUnquoted = '"' :: rest := by
    rw [dropWhile_append_of_pos hcontent, dropWhile_cons_of_neg (by simp [hquote])]
  have htake : (content ++ '"' :: rest).takeWhile isUnquoted = content := by
    rw [takeWhile_append_of_pos hcontent, takeWhile_cons_of_neg (by simp [hquote]), append_nil]
  rw [quotedField, hdrop, htake]
  rfl

/-- A field is found where the text goes on with a delimiter. -/
theorem Field.leading {rest : Text} (h : Field s content) (hrest : AtDelimiter rest) :
    leadingField (s ++ rest) = (content, rest) := by
  cases h with
  | @quoted before content after hbefore hcontent hafter =>
    have hquote : isSpace '"' = false := rfl
    have hs : ((before ++ '"' :: (content ++ '"' :: after)) ++ rest).dropWhile isSpace =
        '"' :: (content ++ '"' :: (after ++ rest)) := by
      rw [append_assoc, dropWhile_append_of_pos hbefore, cons_append,
        dropWhile_cons_of_neg (by simp [hquote]), append_assoc, cons_append]
    rw [leadingField, hs, quotedField_quoted hcontent, dropWhile_blanks hafter hrest]
    rfl
  | @token before content after hbefore hcontent hafter =>
    -- the token is found behind the blanks, and the blanks behind it belong to the field
    have hend : ∀ x ∈ (after ++ rest).head?, isTokenChar x = false := by
      intro x hx
      cases after with
      | nil => exact isTokenChar_eq_false_of_isDelimiter (hrest x hx)
      | cons c after =>
        obtain rfl : c = x := Option.some.inj hx
        exact isTokenChar_eq_false_of_isSpace (hafter c (mem_cons_self ..))
    have hs : leadingField ((before ++ (content ++ after)) ++ rest) =
        leadingField (content ++ (after ++ rest)) := by
      rw [leadingField, leadingField, append_assoc, append_assoc,
        dropWhile_append_of_pos hbefore]
    rw [hs]
    cases content with
    | nil =>
      rw [nil_append, leadingField, dropWhile_blanks hafter hrest,
        quotedField_of_head fun d hd => beq_quote_of_isDelimiter
          (hrest d hd), Option.getD_none, tokenField,
        takeWhile_of_head fun d hd => isTokenChar_eq_false_of_isDelimiter (hrest d hd),
        dropWhile_of_head fun d hd => isTokenChar_eq_false_of_isDelimiter (hrest d hd),
        dropWhile_of_head fun d hd => isSpace_eq_false_of_isDelimiter (hrest d hd)]
    | cons x content =>
      obtain ⟨-, hquote, hspace⟩ := isTokenChar_iff.mp (hcontent x (mem_cons_self ..))
      have hhead : ((x :: content) ++ (after ++ rest)).dropWhile isSpace = (x :: content) ++
          (after ++ rest) :=
        dropWhile_of_head fun y hy => by
          obtain rfl : x = y := Option.some.inj hy
          exact hspace
      have hnone : quotedField ((x :: content) ++ (after ++ rest)) = none :=
        quotedField_of_head fun y hy => by
          obtain rfl : x = y := Option.some.inj hy
          exact hquote
      rw [leadingField, hhead, hnone, Option.getD_none, tokenField, takeWhile_append_of_pos hcontent,
        takeWhile_of_head hend, append_nil, dropWhile_append_of_pos hcontent,
        dropWhile_of_head hend, dropWhile_blanks hafter hrest]

/-- Each text begins with a field, which may be empty. -/
theorem exists_leading (s : Text) : ∃ before, Field before (leadingField s).1 ∧ s = before ++ (leadingField s).2 := by
  have hblank : ∀ (t : Text), ∀ c ∈ t.takeWhile isSpace, isSpace c = true :=
      fun t c hc => mem_takeWhile_imp hc
  have hs : s = s.takeWhile isSpace ++ s.dropWhile isSpace := takeWhile_append_dropWhile.symm
  rw [leadingField]
  cases hfield : quotedField (s.dropWhile isSpace) with
  | some found =>
    cases ht : s.dropWhile isSpace with
    | nil => simp [ht, quotedField] at hfield
    | cons c t =>
      rw [ht, quotedField] at hfield
      split at hfield
      case isFalse => cases hfield
      case isTrue hc =>
        cases hdrop : t.dropWhile isUnquoted with
        | nil => simp [hdrop] at hfield
        | cons q rest =>
          rw [hdrop] at hfield
          obtain rfl := (Option.some.inj hfield).symm
          have hq : q = '"' := by
            have := head_dropWhile isUnquoted t q (by rw [hdrop]; rfl)
            simpa [isUnquoted] using this
          refine ⟨s.takeWhile isSpace ++ '"' :: (t.takeWhile isUnquoted ++ '"' ::
            rest.takeWhile isSpace),
            .quoted (hblank s) (fun c hc => mem_takeWhile_imp hc) (hblank rest), ?_⟩
          have hrest : t = t.takeWhile isUnquoted ++
              '"' :: (rest.takeWhile isSpace ++ rest.dropWhile isSpace) := by
            rw [takeWhile_append_dropWhile, ← hq, ← hdrop, takeWhile_append_dropWhile]
          rw [eq_of_beq hc] at ht
          calc s = s.takeWhile isSpace ++ '"' :: t := by rw [← ht]; exact hs
            _ = _ := by
              conv_lhs => rw [hrest]
              simp
  | none =>
    have hsplit (t : Text) : t = t.takeWhile isTokenChar ++ ((t.dropWhile isTokenChar).takeWhile isSpace ++
        (t.dropWhile isTokenChar).dropWhile isSpace) := by
      rw [takeWhile_append_dropWhile, takeWhile_append_dropWhile]
    refine ⟨_, .token (hblank s) (fun c hc => mem_takeWhile_imp hc)
      (hblank ((s.dropWhile isSpace).dropWhile isTokenChar)), ?_⟩
    calc s = s.takeWhile isSpace ++ s.dropWhile isSpace := hs
      _ = _ := by
        conv_lhs => rw [hsplit (s.dropWhile isSpace)]
        simp [tokenField]

/-- The fields of a line, one after the other. -/
theorem line_cons_iff {fields : List Text} : Line s (content :: fields) ↔
    (leadingField s).1 = content ∧ ((leadingField s).2 = [] ∧ fields = [] ∨
      ∃ d rest, (leadingField s).2 = d :: rest ∧ isDelimiter d = true ∧ Line rest fields) := by
  constructor
  · intro h
    cases h with
    | last hfield =>
      have hlead : leadingField (s ++ []) = (content, []) := hfield.leading nofun
      rw [append_nil] at hlead
      rw [hlead]
      exact ⟨rfl, .inl ⟨rfl, rfl⟩⟩
    | @more s _ rest d _ hfield hd hrest =>
      have hlead : leadingField (s ++ d :: rest) = (content, d :: rest) := hfield.leading fun x hx => by
        obtain rfl : d = x := Option.some.inj hx
        exact hd
      rw [hlead]
      exact ⟨rfl, .inr ⟨d, rest, rfl, hd, hrest⟩⟩
  · rintro ⟨rfl, h⟩
    obtain ⟨before, hfield, hs⟩ := exists_leading s
    obtain ⟨hend, rfl⟩ | ⟨d, rest, hrest, hd, hline⟩ := h
    · rw [hend, append_nil] at hs
      rw [← hs] at hfield
      exact .last hfield
    · rw [hrest] at hs
      have hmore := Line.more hfield hd hline
      rwa [← hs] at hmore

theorem not_line_nil (s : Text) : ¬ Line s [] := nofun

end Lumiera.Lib.Stat
