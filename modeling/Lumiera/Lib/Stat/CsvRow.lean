import Lumiera.Lib.Stat.CsvParser
import Mathlib.Tactic.IntervalCases
import Mathlib.Tactic.Positivity

/-! # Values in CSV fields (`lib/stat/csv.hpp`)

The values of a column are integral numbers, characters, truth values or texts. A value is rendered by
`format4Csv` and is read again by `parseAs`, by means of an input stream, which only takes what it needs from
the start of the field.

What a field denotes is also stated on its own (`Denotes`): the complete field is the notation of a value. -/

namespace Lumiera.Lib.Stat

open List

open Parse (isSpace)

/-! ## The types of values -/

/-- An integral type, by its width and signedness. -/
structure IntegralType where
  bits : ℕ
  signed : Bool
  deriving DecidableEq, Repr

namespace IntegralType

def min (ty : IntegralType) : ℤ := if ty.signed then -2 ^ (ty.bits - 1) else 0

def max (ty : IntegralType) : ℤ := if ty.signed then 2 ^ (ty.bits - 1) - 1 else 2 ^ ty.bits - 1

theorem min_le_zero (ty : IntegralType) : ty.min ≤ 0 := by
  have hpow : (0 : ℤ) < 2 ^ (ty.bits - 1) := by positivity
  unfold min
  split <;> omega

theorem zero_le_max (ty : IntegralType) : 0 ≤ ty.max := by
  have hhalf : (0 : ℤ) < 2 ^ (ty.bits - 1) := by positivity
  have hpow : (0 : ℤ) < 2 ^ ty.bits := by positivity
  unfold max
  split <;> omega

/-- The numbers of this type. -/
abbrev Value (ty : IntegralType) : Type := {v : ℤ // ty.min ≤ v ∧ v ≤ ty.max}

end IntegralType

/-- The type of the values in a column. The types of the size of a `char` are all handled as characters. -/
inductive ValueType
  | integral (ty : IntegralType)
  | character
  | boolean
  | text
  deriving DecidableEq, Repr

abbrev ValueType.Value : ValueType → Type
  | integral ty => ty.Value
  | character => Char
  | boolean => Bool
  | text => Text

/-- A value which is not set. -/
def ValueType.init : (type : ValueType) → type.Value
  | integral ty => ⟨0, ty.min_le_zero, ty.zero_le_max⟩
  | character => Char.ofNat 0
  | boolean => false
  | text => []

/-! ## Rendering -/

/-- The decimal notation of an integral number. -/
def showInteger (v : ℤ) : Text := if v < 0 then '-' :: decimal v.natAbs else decimal v.natAbs

/-- `util::showBool` -/
def showBool (yes : Bool) : Text := if yes then "true".toList else "false".toList

/-- `util::toString` -/
def showValue : (type : ValueType) → type.Value → Text
  | .integral _, v => showInteger v.val
  | .character, c => [c]
  | .boolean, yes => showBool yes
  | .text, s => s

def ValueType.isArithmetic : ValueType → Bool
  | text => false
  | _ => true

/-- **Render a value**; only texts are quoted. -/
def format4Csv (type : ValueType) (val : type.Value) : Text :=
  if type.isArithmetic then showValue type val else '"' :: (showValue type val ++ ['"'])

/-- `appendCsvField`: append a value to a line. -/
def appendCsvField (csv : Text) (type : ValueType) (val : type.Value) : Text :=
  csv ++ ((if csv.length = 0 then [] else [',']) ++ format4Csv type val)

/-! ## Reading -/

/-- The number given by some digits. -/
def digitsValue (digits : Text) : ℕ := digits.foldl (fun n c => 10 * n + (c.toNat - '0'.toNat)) 0

/-- A number of this type from sign and magnitude. In an unsigned type, a negative number wraps around. -/
def IntegralType.read (ty : IntegralType) (negative : Bool) (magnitude : ℕ) : Option ty.Value :=
  let v : ℤ := if negative then (if ty.signed then -magnitude else (-magnitude) % 2 ^ ty.bits) else magnitude
  if !ty.signed && ty.max < magnitude then none
  else if h : ty.min ≤ v ∧ v ≤ ty.max then some ⟨v, h⟩ else none

/-- The sign in front of a number, and what follows. -/
def readSign : Text → Bool × Text
  | [] => (false, [])
  | c :: s => if c == '-' then (true, s) else if c == '+' then (false, s) else (false, c :: s)

/-- **Read an integral number** from an input stream: blanks are skipped, and anything behind the
digits is left in the stream. -/
def extractInteger (ty : IntegralType) (s : Text) : Option ty.Value :=
  let (negative, s) := readSign (s.dropWhile isSpace)
  let digits := s.takeWhile Char.isDigit
  if digits.isEmpty then none else ty.read negative (digitsValue digits)

/-- Read a character from an input stream; blanks are skipped. -/
def extractChar (s : Text) : Option Char := (s.dropWhile isSpace).head?

/-- A word within a regular expression, in upper or lower case. -/
def word : Text → Pattern
  | [] => .many fun _ => false
  | c :: s => .seq (.one fun x => x.toLower == c) (word s)

/-- One of several words, with blanks around. -/
def tokens (first : String) (others : List String) : Pattern :=
  .seq (.many isSpace) (.seq
    (.group 1 (others.foldl (fun a w => .alt a (word w.toList)) (word first.toList))) (.many isSpace))

/-- `\s*(true|yes|on|1|\+)\s*` -/
def trueTokens : Pattern := tokens "true" ["yes", "on", "1", "+"]

/-- `\s*(false|no|off|0|\-)\s*` -/
def falseTokens : Pattern := tokens "false" ["no", "off", "0", "-"]

/-- `util::boolVal` -/
def boolVal (textForm : Text) : Except Error Bool :=
  if trueTokens.fullMatch textForm then .ok true
  else if falseTokens.fullMatch textForm then .ok false
  else .error (.invalid "String '%s' can not be interpreted as bool value" [textForm])

/-- What has been extracted from the input stream, unless this failed. -/
def converted {A : Type} (encodedVal : Text) : Option A → Except Error A
  | some value => .ok value
  | none => .error (.invalid "unable to parse \"%s\"" [encodedVal])

/-- **Read a value** from the content of a field. -/
def parseAs : (type : ValueType) → Text → Except Error type.Value
  | .integral ty, encodedVal => converted encodedVal (extractInteger ty encodedVal)
  | .character, encodedVal => converted encodedVal (extractChar encodedVal)
  | .boolean, encodedBool => boolVal encodedBool
  | .text, string => .ok string

/-! ## What is read again -/

/-- A value which can be told apart from what surrounds it in a line. -/
def Legible : (type : ValueType) → type.Value → Prop
  | .character, c => isTokenChar c = true
  | .text, s => ∀ c ∈ s, isUnquoted c = true
  | _, _ => True

instance : ∀ (type : ValueType) (val : type.Value), Decidable (Legible type val)
  | .integral _, _ => .isTrue trivial
  | .character, c => inferInstanceAs (Decidable (isTokenChar c = true))
  | .boolean, _ => .isTrue trivial
  | .text, s => List.decidableBAll _ s

theorem toNat_digitChar_sub {n : ℕ} (h : n < 10) : (Nat.digitChar n).toNat - '0'.toNat = n := by
  interval_cases n <;> rfl

/-- The decimal notation is read as the same number. -/
theorem digitsValue_decimal (n : ℕ) : digitsValue (decimal n) = n := by
  induction n using Nat.strongRecOn with
  | ind n ih =>
    rw [decimal, Nat.toDigits_eq_if (by decide)]
    split
    case isTrue hlt => simpa [digitsValue] using toNat_digitChar_sub hlt
    case isFalse hge =>
        have hquot := ih (n / 10) (Nat.div_lt_self (by omega) (by decide))
        rw [digitsValue, foldl_append]
        change 10 * digitsValue (decimal (n / 10)) + _ = n
        rw [hquot, toNat_digitChar_sub (Nat.mod_lt n (by decide))]
        exact Nat.div_add_mod n 10

theorem isDigit_of_mem_decimal {n : ℕ} : ∀ c ∈ decimal n, c.isDigit = true := fun _ hc =>
  Nat.isDigit_of_mem_toDigits (by decide) (by decide) hc

theorem decimal_ne_nil (n : ℕ) : decimal n ≠ [] := Nat.toDigits_ne_nil

theorem isTokenChar_of_isDigit {c : Char} (hc : c.isDigit = true) :
    isTokenChar c = true ∧ (c == '-') = false ∧ (c == '+') = false := by
  have hne {d : Char} (hd : d.isDigit = false) : (c == d) = false := by
    refine beq_false_of_ne fun h => ?_
    rw [h, hd] at hc
    cases hc
  have hspace : isSpace c = false := by
    have hle : '0'.val ≤ c.val := (Bool.and_eq_true_iff.mp hc).1 |> of_decide_eq_true
    rw [isSpace, hne rfl, Bool.false_or, Bool.and_eq_false_iff]
    refine .inr (decide_eq_false fun h => ?_)
    have hcontrol : c.val ≤ '\r'.val := h
    exact absurd (UInt32.le_trans hle hcontrol) (by decide)
  have hdelimiter : isDelimiter c = false := by
    rw [isDelimiter, hne rfl, hne rfl]
    rfl
  exact ⟨isTokenChar_iff.mpr ⟨hdelimiter, hne rfl, hspace⟩, hne rfl, hne rfl⟩

theorem takeWhile_isDigit_decimal (n : ℕ) : (decimal n).takeWhile Char.isDigit = decimal n :=
  takeWhile_eq_self_iff.mpr isDigit_of_mem_decimal

theorem isEmpty_decimal (n : ℕ) : (decimal n).isEmpty = false := by
  rw [isEmpty_eq_false_iff]
  exact decimal_ne_nil n

theorem head_decimal (n : ℕ) : ∃ c s, decimal n = c :: s ∧ c.isDigit = true := by
  obtain ⟨c, s, hs⟩ := exists_cons_of_ne_nil (decimal_ne_nil n)
  exact ⟨c, s, hs, isDigit_of_mem_decimal c (by rw [hs]; exact mem_cons_self ..)⟩

variable {ty : IntegralType}

theorem IntegralType.signed_of_neg (v : ty.Value) (hv : v.val < 0) : ty.signed = true := by
  by_contra hsigned
  have hzero : ty.min = 0 := if_neg hsigned
  omega

theorem IntegralType.read_natAbs (v : ty.Value) : ty.read (decide (v.val < 0)) v.val.natAbs = some v := by
  by_cases hv : v.val < 0
  · have hneg : -(v.val.natAbs : ℤ) = v.val := by omega
    rw [IntegralType.read, decide_eq_true hv, IntegralType.signed_of_neg v hv]
    rw [if_pos rfl, if_pos rfl, hneg, Bool.not_true, Bool.false_and, if_neg Bool.false_ne_true,
      dif_pos v.property]
  · have hpos : (v.val.natAbs : ℤ) = v.val := by omega
    rw [IntegralType.read, decide_eq_false hv]
    rw [if_neg Bool.false_ne_true, hpos, decide_eq_false (not_lt.mpr v.property.2), Bool.and_false,
      if_neg Bool.false_ne_true, dif_pos v.property]

/-- An integral number is read again. -/
theorem extractInteger_showInteger (v : ty.Value) : extractInteger ty (showInteger v.val) = some v := by
  have hread := IntegralType.read_natAbs v
  have hsign : readSign ((showInteger v.val).dropWhile isSpace) =
      (decide (v.val < 0), decimal v.val.natAbs) := by
    rw [showInteger]
    by_cases hv : v.val < 0
    · rw [if_pos hv, decide_eq_true hv]
      rfl
    · rw [if_neg hv, decide_eq_false hv]
      obtain ⟨c, s, hs, hc⟩ := head_decimal v.val.natAbs
      obtain ⟨htoken, hminus, hplus⟩ := isTokenChar_of_isDigit hc
      rw [hs, dropWhile_cons_of_neg (by simp [(isTokenChar_iff.mp htoken).2.2]), readSign, hminus, hplus]
      rfl
  rw [extractInteger, hsign]
  dsimp only
  rw [takeWhile_isDigit_decimal, isEmpty_decimal, if_neg Bool.false_ne_true, digitsValue_decimal, hread]

theorem field_token {content : Text} (h : ∀ c ∈ content, isTokenChar c = true) : Field content content := by
  have hfield : Field ([] ++ (content ++ [])) content := .token nofun h nofun
  rwa [nil_append, append_nil] at hfield

theorem isTokenChar_of_mem_showInteger {v : ℤ} : ∀ c ∈ showInteger v, isTokenChar c = true := by
  intro c hc
  have hdigits (h : c ∈ decimal v.natAbs) : isTokenChar c = true :=
    (isTokenChar_of_isDigit (isDigit_of_mem_decimal c h)).1
  rw [showInteger] at hc
  split at hc
  · obtain rfl | hc := mem_cons.mp hc
    · decide
    · exact hdigits hc
  · exact hdigits hc

theorem isTokenChar_of_mem_showBool {yes : Bool} : ∀ c ∈ showBool yes, isTokenChar c = true := by
  cases yes with
  | false => exact all_eq_true.mp (by decide)
  | true => exact all_eq_true.mp (by decide)

/-- A legible value is read again from the field rendered for it. -/
theorem field_format4Csv {type : ValueType} {val : type.Value} (h : Legible type val) :
    Field (format4Csv type val) (showValue type val) ∧ parseAs type (showValue type val) = .ok val := by
  cases type with
  | integral ty =>
    refine ⟨field_token isTokenChar_of_mem_showInteger, ?_⟩
    rw [parseAs, showValue, extractInteger_showInteger]
    rfl
  | character =>
    have htoken : isTokenChar val = true := h
    refine ⟨field_token (by simpa [format4Csv, ValueType.isArithmetic, showValue] using htoken), ?_⟩
    rw [parseAs, showValue, extractChar,
      dropWhile_cons_of_neg (by simp [(isTokenChar_iff.mp htoken).2.2])]
    rfl
  | boolean => exact ⟨field_token isTokenChar_of_mem_showBool, by cases val <;> rfl⟩
  | text =>
    refine ⟨?_, rfl⟩
    have hfield : Field ([] ++ '"' :: (val ++ ['"'])) val := .quoted nofun h nofun
    rwa [nil_append] at hfield

/-! ## Rows in CSV format

The values of a row are rendered into a line, and a line is read as a row when it has a field for each column
and a value can be read from each of them. What a line should be like is stated by the grammar and by the
notation of the values (`WellFormed`): such lines are read, while some others are read as well. -/

/-- A value, with its type. -/
abbrev Cell := Σ type : ValueType, type.Value

/-! ## Well formed lines -/

def Blank (s : Text) : Prop := ∀ c ∈ s, isSpace c = true

/-- The number denoted by sign and digits. -/
def signedValue (negative : Bool) (digits : Text) : ℤ :=
  if negative then -(digitsValue digits : ℤ) else digitsValue digits

/-- **The notation of a number** of some type: digits, with a sign in front or without. -/
def Numeral (ty : IntegralType) (s : Text) : Prop :=
  ∃ negative digits, (s = digits ∧ negative = false ∨ s = '+' :: digits ∧ negative = false ∨
      s = '-' :: digits ∧ negative = true) ∧ digits ≠ [] ∧ (∀ c ∈ digits, c.isDigit = true) ∧
    ty.min ≤ signedValue negative digits ∧ signedValue negative digits ≤ ty.max

/-- **A field denotes a value**: it is the notation of this value, and nothing else than blanks is around. -/
def Denotes : ValueType → Text → Prop
  | .integral ty, content =>
    ∃ before s after, content = before ++ (s ++ after) ∧ Blank before ∧ Blank after ∧ Numeral ty s
  | .character, content =>
    ∃ before c after, content = before ++ (c :: after) ∧ Blank before ∧ Blank after ∧ isSpace c = false
  | .boolean, content => trueTokens.fullMatch content = true ∨ falseTokens.fullMatch content = true
  | .text, _ => True

/-- **A line is well formed** when its fields denote values for all the columns. -/
def WellFormed (types : List ValueType) (line : Text) : Prop :=
  ∃ fields, Line line fields ∧ List.Forall₂ Denotes types fields

/-! ## Reading a row -/

/-- What follows after a field: nothing, another field behind a delimiter, or garbage. -/
inductive Following
  | finished
  | field (s : Text)
  | garbage

def following : Text → Following
  | [] => .finished
  | d :: rest => if isDelimiter d then .field rest else .garbage

theorem following_of_isDelimiter {d : Char} (hd : isDelimiter d = true) (rest : Text) :
    following (d :: rest) = .field rest := if_pos hd

/-- **Read the values of a row**, from what follows. -/
def readRow : List ValueType → Following → Option (List Cell)
  | [], .finished => some []
  | type :: types, .field s =>
    match parseAs type (leadingField s).1 with
    | .error _ => none
    | .ok val => (readRow types (following (leadingField s).2)).map (⟨type, val⟩ :: ·)
  | _, _ => none

variable {type : ValueType} {types : List ValueType} {s : Text}

theorem readRow_cons_of_ok {val : type.Value} (h : parseAs type (leadingField s).1 = .ok val) :
    readRow (type :: types) (.field s) = (readRow types (following (leadingField s).2)).map (⟨type, val⟩ :: ·) := by
  rw [readRow, h]

theorem readRow_cons_of_error {e : Error} (h : parseAs type (leadingField s).1 = .error e) :
    readRow (type :: types) (.field s) = none := by
  rw [readRow, h]

/-! ## Rendering a row -/

/-- `CSVLine`: the values given, appended one after the other. -/
def csvLine (cells : List Cell) : Text := cells.foldl (fun csv cell => appendCsvField csv cell.1 cell.2) []

/-- The fields behind the first one. -/
def furtherFields (cells : List Cell) : Text := cells.flatMap fun cell => ',' :: format4Csv cell.1 cell.2

theorem furtherFields_cons (cell : Cell) (cells : List Cell) : furtherFields (cell :: cells) =
    ',' :: format4Csv cell.1 cell.2 ++ furtherFields cells := by
  rfl

theorem format4Csv_ne_nil (type : ValueType) (val : type.Value) : format4Csv type val ≠ [] := by
  cases type with
  | integral ty =>
    intro h
    change showInteger val.val = [] at h
    rw [showInteger] at h
    split at h
    · cases h
    · exact decimal_ne_nil _ h
  | character => exact cons_ne_nil val []
  | boolean => cases val <;> exact cons_ne_nil _ _
  | text => exact cons_ne_nil _ _

theorem foldl_appendCsvField (cells : List Cell) {csv : Text} (hcsv : csv ≠ []) :
    cells.foldl (fun csv cell => appendCsvField csv cell.1 cell.2) csv = csv ++ furtherFields cells := by
  induction cells generalizing csv with
  | nil => exact (append_nil csv).symm
  | cons cell cells ih =>
    have happend : appendCsvField csv cell.1 cell.2 = csv ++ (',' :: format4Csv cell.1 cell.2) := by
      rw [appendCsvField, if_neg (by simpa using hcsv)]
      rfl
    rw [foldl_cons, happend, ih (by simp), furtherFields_cons, append_assoc]

/-- The fields of a line are separated by commas. -/
theorem csvLine_cons (cell : Cell) (cells : List Cell) :
    csvLine (cell :: cells) = format4Csv cell.1 cell.2 ++ furtherFields cells :=
  foldl_appendCsvField cells (format4Csv_ne_nil cell.1 cell.2)

theorem atDelimiter_furtherFields (cells : List Cell) : AtDelimiter (furtherFields cells) := by
  cases cells with
  | nil => exact fun d hd => by cases hd
  | cons cell cells =>
    intro d hd
    obtain rfl : ',' = d := Option.some.inj hd
    rfl

theorem following_furtherFields (cell : Cell) (cells : List Cell) :
    following (furtherFields (cell :: cells)) = .field (format4Csv cell.1 cell.2 ++ furtherFields cells) :=
  following_of_isDelimiter rfl _

theorem readRow_rendered {val : type.Value} (h : Legible type val) (types : List ValueType)
    (cells : List Cell) : readRow (type :: types) (.field (format4Csv type val ++ furtherFields cells)) =
      (readRow types (following (furtherFields cells))).map (⟨type, val⟩ :: ·) := by
  obtain ⟨hfield, hval⟩ := field_format4Csv h
  have hlead := hfield.leading (atDelimiter_furtherFields cells)
  have hread : parseAs type (leadingField (format4Csv type val ++ furtherFields cells)).1 = .ok val := by
    rw [hlead]
    exact hval
  rw [readRow_cons_of_ok hread, hlead]

variable {cells : List Cell}

/-- Legible values are read again from the line rendered for them. -/
theorem readRow_csvLine (hne : cells ≠ []) (h : ∀ cell ∈ cells, Legible cell.1 cell.2) :
    readRow (cells.map Sigma.fst) (.field (csvLine cells)) = some cells := by
  obtain ⟨cell, cells, rfl⟩ := exists_cons_of_ne_nil hne
  clear hne
  rw [csvLine_cons]
  induction cells generalizing cell with
  | nil =>
    rw [map_cons, readRow_rendered (h cell (mem_cons_self ..))]
    rfl
  | cons next cells ih =>
    rw [map_cons, readRow_rendered (h cell (mem_cons_self ..)), following_furtherFields,
      ih next fun c hc => h c (mem_cons_of_mem cell hc)]
    rfl

/-! ## Characters which can not be read again -/

/-- The characters which may be read. -/
def Clean : (type : ValueType) → type.Value → Prop
  | .character, c => isSpace c = false ∧ isUnquoted c = true
  | _, _ => True

theorem Field.unquoted {content : Text} (h : Field s content) : ∀ c ∈ content, isUnquoted c = true := by
  cases h with
  | quoted _ hcontent _ => exact hcontent
  | token _ hcontent _ =>
    intro c hc
    simpa [isUnquoted] using (isTokenChar_iff.mp (hcontent c hc)).2.1

theorem clean_of_parseAs {val : type.Value} (h : parseAs type (leadingField s).1 = .ok val) : Clean type val := by
  cases type with
  | character =>
    obtain ⟨before, hfield, -⟩ := exists_leading s
    rw [parseAs, extractChar] at h
    cases hdrop : (leadingField s).1.dropWhile isSpace with
    | nil =>
      rw [hdrop] at h
      cases h
    | cons c rest =>
      rw [hdrop] at h
      obtain rfl : c = val := Except.ok.inj h
      have hmem : c ∈ (leadingField s).1 :=
        (dropWhile_sublist isSpace).subset (by rw [hdrop]; exact mem_cons_self ..)
      exact ⟨head_dropWhile isSpace (leadingField s).1 c (by rw [hdrop]; rfl), hfield.unquoted c hmem⟩
  | integral ty => trivial
  | boolean => trivial
  | text => trivial

/-- Neither a blank nor a quote is read as a character. -/
theorem clean_of_readRow {next : Following} (h : readRow types next = some cells) :
    ∀ cell ∈ cells, Clean cell.1 cell.2 := by
  induction types generalizing next cells with
  | nil =>
    cases next with
    | finished =>
      cases h
      exact nofun
    | field s => cases h
    | garbage => cases h
  | cons type types ih =>
    cases next with
    | finished => cases h
    | garbage => cases h
    | field s =>
      cases hval : parseAs type (leadingField s).1 with
      | error e =>
        rw [readRow_cons_of_error hval] at h
        cases h
      | ok val =>
        rw [readRow_cons_of_ok hval] at h
        obtain ⟨others, hothers, rfl⟩ := Option.map_eq_some_iff.mp h
        exact forall_mem_cons.mpr ⟨clean_of_parseAs hval, ih hothers⟩

/-- A text without quotes; anything else is fine. -/
def Quotable : (type : ValueType) → type.Value → Prop
  | .text, s => ∀ c ∈ s, isUnquoted c = true
  | _, _ => True

theorem legible_or_delimiter {val : type.Value} (hclean : Clean type val) (hquotable : Quotable type val) :
    Legible type val ∨ ∃ d, isDelimiter d = true ∧ (⟨type, val⟩ : Cell) = ⟨.character, d⟩ := by
  cases type with
  | character =>
    obtain ⟨hspace, hquote⟩ := hclean
    cases hd : isDelimiter val with
    | true => exact .inr ⟨val, hd, rfl⟩
    | false => exact .inl (isTokenChar_iff.mpr ⟨hd, by simpa [isUnquoted] using hquote, hspace⟩)
  | text => exact .inl hquotable
  | integral ty => exact .inl trivial
  | boolean => exact .inl trivial

theorem readRow_delimiter {d : Char} (hd : isDelimiter d = true) (types : List ValueType) (rest : Text) :
    readRow (.character :: types) (.field (d :: rest)) = none := by
  have hempty : Field [] [] := field_token nofun
  have hlead : leadingField ([] ++ d :: rest) = ([], d :: rest) := hempty.leading fun x hx => by
    obtain rfl : d = x := Option.some.inj hx
    exact hd
  refine readRow_cons_of_error (e := .invalid "unable to parse \"%s\"" [[]]) ?_
  rw [nil_append] at hlead
  rw [hlead]
  rfl

/-- A line which is read has been rendered for legible values. -/
theorem legible_of_readRow_csvLine {read : List Cell} (hclean : ∀ cell ∈ cells, Clean cell.1 cell.2)
    (hquotable : ∀ cell ∈ cells, Quotable cell.1 cell.2)
    (h : readRow (cells.map Sigma.fst) (.field (csvLine cells)) = some read) :
    ∀ cell ∈ cells, Legible cell.1 cell.2 := by
  cases cells with
  | nil => exact nofun
  | cons cell cells =>
    rw [csvLine_cons] at h
    induction cells generalizing cell read with
    | nil =>
      obtain ⟨type, val⟩ := cell
      obtain hlegible | ⟨d, hd, heq⟩ := legible_or_delimiter (hclean _ (mem_cons_self ..))
        (hquotable _ (mem_cons_self ..))
      · exact forall_mem_singleton.mpr hlegible
      · rw [heq] at h
        exact absurd (h.symm.trans (readRow_delimiter hd [] _)) nofun
    | cons next cells ih =>
      obtain ⟨type, val⟩ := cell
      obtain hlegible | ⟨d, hd, heq⟩ := legible_or_delimiter (hclean _ (mem_cons_self ..))
        (hquotable _ (mem_cons_self ..))
      · rw [map_cons, readRow_rendered hlegible] at h
        obtain ⟨others, hothers, -⟩ := Option.map_eq_some_iff.mp h
        refine forall_mem_cons.mpr ⟨hlegible, ih next ?_ ?_ hothers⟩
        · exact (forall_mem_cons.mp hclean).2
        · exact (forall_mem_cons.mp hquotable).2
      · rw [heq] at h
        exact absurd (h.symm.trans (readRow_delimiter hd _ _)) nofun

end Lumiera.Lib.Stat
