import Lumiera.Base.PatternWays
import Lumiera.Lib.SafeRational
import Lumiera.Lib.Time.Mutation

/-! # Textual time specifications (`lib/time/timecode.cpp`)

Frame numbers and fractional seconds are picked out of a text by a regular expression. The parts it
matched are then converted to integers and to a rational number, which may fail with exceptions of
their own. -/

namespace Lumiera.Lib.RawTime

/-- What is thrown while parsing. -/
inductive ParseError
  /-- `error::Invalid`, with the ID `INVALID_TIMECODE` -/
  | invalidTimecode (desc : List Char)
  /-- `boost::bad_lexical_cast` -/
  | badLexicalCast
  /-- `boost::bad_rational` -/
  | badRational
  deriving DecidableEq

/-! ## Numbers -/

/-- The number given by some digits. -/
def decimalValue (digits : List Char) : ℕ := digits.foldl (fun n c => 10 * n + (c.toNat - '0'.toNat)) 0

/-- The number given by sign and digits. -/
def signed (negative : Bool) (digits : List Char) : ℤ :=
  if negative then -(decimalValue digits : ℤ) else decimalValue digits

/-- The sign in front of a number, and what follows. -/
def splitSign : List Char → Bool × List Char
  | [] => (false, [])
  | c :: s => if c = '-' then (true, s) else if c = '+' then (false, s) else (false, c :: s)

/-- `lexical_cast` to a signed integer type of this width: anything else than a number of this type is
rejected. -/
def lexicalCast (width : ℕ) (s : List Char) : Except ParseError ℤ :=
  let (negative, digits) := splitSign s
  let value := signed negative digits
  if digits ≠ [] ∧ digits.all Char.isDigit ∧ -2 ^ (width - 1) ≤ value ∧ value < 2 ^ (width - 1) then .ok value
  else .error .badLexicalCast

/-- `lexical_cast<int>` -/
def castInt (s : List Char) : Except ParseError Int32 := (lexicalCast 32 s).map Int32.ofInt

/-- `lexical_cast<FrameCnt>` -/
def castFrameCnt (s : List Char) : Except ParseError Int64 := (lexicalCast 64 s).map Int64.ofInt

/-! ## Fractional seconds -/

/-- Numerator and denominator are as small as an `int`. -/
def Rational.Small (q : Rational) : Prop :=
  -2 ^ 31 ≤ q.numerator.toInt ∧ q.numerator.toInt < 2 ^ 31 ∧ q.denominator.toInt < 2 ^ 31

theorem toInt_cancelled (num den : Int32) (hden : 0 < den.toInt) :
    (num.toInt64 / gcd num.toInt64 den.toInt64).toInt = num.toInt / Int.gcd num.toInt den.toInt ∧
    (den.toInt64 / gcd num.toInt64 den.toInt64).toInt = den.toInt / Int.gcd num.toInt den.toInt := by
  have hpos : 0 < den.toInt64.toInt := by rwa [Int32.toInt_toInt64]
  have hgcd := toInt_gcd_of_pos (x := num.toInt64) hpos
  rw [Int32.toInt_toInt64, Int32.toInt_toInt64] at hgcd
  have hgcdPos : 0 < Int.gcd num.toInt den.toInt := Int.gcd_pos_of_ne_zero_right _ hden.ne'
  exact ⟨toInt_div_eq hgcdPos (Int.gcd_dvd_left ..) (Int32.toInt_toInt64 num) hgcd,
    toInt_div_eq hgcdPos (Int.gcd_dvd_right ..) (Int32.toInt_toInt64 den) hgcd⟩

/-- The rational number built from two integers (`FSecs`). -/
def fsecs (num den : Int32) (hden : 0 < den.toInt) : Rational where
  numerator := num.toInt64 / gcd num.toInt64 den.toInt64
  denominator := den.toInt64 / gcd num.toInt64 den.toInt64
  denominator_pos := by
    have hgcd : (0 : ℤ) ≤ Int.gcd num.toInt den.toInt := Int.natCast_nonneg _
    rw [(toInt_cancelled num den hden).2]
    exact Int.ediv_pos_of_pos_of_dvd hden hgcd (Int.gcd_dvd_right ..)
  reduced := by
    rw [(toInt_cancelled num den hden).1, (toInt_cancelled num den hden).2]
    exact Int.gcd_ediv_gcd_ediv_gcd (Int.gcd_pos_of_ne_zero_right _ hden.ne')

theorem fsecs_small (num den : Int32) (hden : 0 < den.toInt) : (fsecs num den hden).Small := by
  have hlow := num.le_toInt
  have hhigh := num.toInt_lt
  have hdenHigh := den.toInt_lt
  have hgcd : (0 : ℤ) < Int.gcd num.toInt den.toInt := by
    exact_mod_cast Int.gcd_pos_of_ne_zero_right num.toInt hden.ne'
  unfold Rational.Small fsecs
  rw [(toInt_cancelled num den hden).1, (toInt_cancelled num den hden).2]
  refine ⟨?_, ?_, ?_⟩
  · rw [Int.le_ediv_iff_mul_le hgcd]
    nlinarith
  · rw [Int.ediv_lt_iff_lt_mul hgcd]
    nlinarith
  · rw [Int.ediv_lt_iff_lt_mul hgcd]
    nlinarith

/-- The rational number of two integers; a denominator, which is always read without a sign, must not
be zero. -/
def makeFSecs (num den : Int32) : Except ParseError {q : Rational // q.Small} :=
  if h : 0 < den.toInt then .ok ⟨fsecs num den h, fsecs_small num den h⟩ else .error .badRational

theorem toInt_add_mul {q : Rational} (hq : q.Small) (n : Int32) :
    (q.numerator + n.toInt64 * q.denominator).toInt = q.numerator.toInt + n.toInt * q.denominator.toInt := by
  obtain ⟨hlow, hhigh, hden⟩ := hq
  have hpos := q.denominator_pos
  have hnlow := n.le_toInt
  have hnhigh := n.toInt_lt
  have hproductLow : -2 ^ 62 ≤ n.toInt * q.denominator.toInt := by nlinarith
  have hproductHigh : n.toInt * q.denominator.toInt ≤ 2 ^ 62 := by nlinarith
  rw [Int64.toInt_add, Int64.toInt_mul, Int32.toInt_toInt64, Int.add_bmod_bmod]
  exact Representable.bmod ⟨by omega, by omega⟩

/-- `operator+`, of a rational number and an integer. -/
def addSeconds (q : {q : Rational // q.Small}) (n : Int32) : Rational where
  numerator := q.1.numerator + n.toInt64 * q.1.denominator
  denominator := q.1.denominator
  denominator_pos := q.1.denominator_pos
  reduced := by
    rw [toInt_add_mul q.2, Int.gcd_add_mul_right_left]
    exact q.1.reduced

/-- `FixedFrameQuantiser::timeOf`, for seconds on the time scale of the grid; the result is not limited. -/
def FixedFrameQuantiser.timeOfSeconds (grid : FixedFrameQuantiser) (bits : ℕ) (gridTime : Rational)
    (gridOffset : Int32) : gavl_time_t :=
  let gt := limitedTime (rationalToTime bits gridTime)
  let timePoint := gt + grid.origin_
  let offset := symmetricLimit grid.raster_ durationMax
  timePoint + symmetricLimit (offset * gridOffset.toInt64) durationMax

/-! ## The regular expressions -/

/-- An empty pattern. -/
def nothing : Pattern := .many fun _ => false

/-- `?` -/
def optional (a : Pattern) : Pattern := .alt a nothing

/-- `\d+` -/
def digitsPattern : Pattern := .seq (.one Char.isDigit) (.many Char.isDigit)

/-- `\-?\d+` -/
def numberPattern : Pattern := .seq (optional (.one (· == '-'))) digitsPattern

/-- Characters which can not stand in front of a frame number. -/
def stopsFrames (c : Char) : Bool := c.isDigit || c == '.' || c == '-'

/-- Characters which can not stand in front of seconds. -/
def stopsSeconds (c : Char) : Bool := c == '.' || c == '/' || c.isDigit || c == '-'

/-- `(?:^|[^\d\.\-])(\-?\d+)#` -/
def frameNrParser : Pattern :=
  .seq (Pattern.leadIn stopsFrames) (.seq (.group 1 numberPattern) (.one (· == '#')))

/-- `(?:([\-\+]\d+)?/(\d+))?` -/
def fractionPattern : Pattern :=
  optional (.seq (optional (.group 2 (.seq (.one fun c => c == '-' || c == '+') digitsPattern)))
    (.seq (.one (· == '/')) (.group 3 digitsPattern)))

/-- `sec` -/
def secPattern : Pattern := .seq (.one (· == 's')) (.seq (.one (· == 'e')) (.one (· == 'c')))

/-- `(?:^|[^\./\d\-])(\-?\d+)(?:([\-\+]\d+)?/(\d+))?sec` -/
def fracSecsParser : Pattern :=
  .seq (Pattern.leadIn stopsSeconds) (.seq (.group 1 numberPattern) (.seq fractionPattern secPattern))

/-! ## Parsing -/

/-- The text of a group. -/
def subExpr (mat : Pattern.Match) (n : ℕ) : List Char := (mat.groups n).getD []

/-- `Frames::parse` -/
def Frames.parse (frameNumber : List Char) (frameGrid : PQuant) : Except ParseError gavl_time_t :=
  match frameNrParser.search frameNumber true 0 with
  | some mat => (castFrameCnt (subExpr mat 1)).map frameGrid.timeOf
  | none =>
    .error (.invalidTimecode
      ("unable to parse framecount \"".toList ++ frameNumber ++ "\"".toList))

/-- `Seconds::parse` -/
def Seconds.parse (bits : ℕ) (seconds : List Char) (grid : PQuant) : Except ParseError gavl_time_t :=
  match fracSecsParser.search seconds true 0 with
  | some mat =>
    if (mat.groups 2).isSome then do
      -- complete spec with all parts
      let fractionalPart ← makeFSecs (← castInt (subExpr mat 2)) (← castInt (subExpr mat 3))
      let fullSeconds ← castInt (subExpr mat 1)
      return grid.timeOfSeconds bits (addSeconds fractionalPart fullSeconds) 0
    else if (mat.groups 3).isSome then do
      -- only a fractional part was given
      let gridTime ← makeFSecs (← castInt (subExpr mat 1)) (← castInt (subExpr mat 3))
      return grid.timeOfSeconds bits gridTime.1 0
    else do
      -- just simple non-fractional seconds
      return grid.timeOfSeconds bits (wholeSeconds (← castInt (subExpr mat 1))) 0
  | none =>
    .error (.invalidTimecode
      ("unable to parse \"".toList ++ seconds ++ "\" as (fractional)seconds".toList))

/-! ## The documented forms of time specifications

A frame number is a whole number and `#`; seconds are a whole number, a fraction, or both together, and
`sec`. The regular expressions find the first text of this form, and their groups hold its numbers. -/

open List Pattern

/-! ## Forms -/

def Digits (s : List Char) : Prop := s ≠ [] ∧ ∀ c ∈ s, c.isDigit = true

/-- A whole number, with an optional minus. -/
def numeral (negative : Bool) (digits : List Char) : List Char :=
  if negative then '-' :: digits else digits

/-- A number which has a sign in any case. -/
def signedNumeral (negative : Bool) (digits : List Char) : List Char :=
  (if negative then '-' else '+') :: digits

/-- `n#` -/
inductive FrameForm : List Char → ℤ → Prop
  | mk {negative : Bool} {digits : List Char} (h : Digits digits) :
      FrameForm (numeral negative digits ++ ['#']) (signed negative digits)

/-- The numbers of a specification in seconds. -/
inductive SecondsSpec
  /-- `n` -/
  | whole (n : ℤ)
  /-- `n/d` -/
  | fraction (n : ℤ) (d : ℕ)
  /-- `n+m/d` -/
  | mixed (n m : ℤ) (d : ℕ)

/-- **The seconds specified.** -/
def SecondsSpec.value : SecondsSpec → ℚ
  | whole n => n
  | fraction n d => n / d
  | mixed n m d => n + m / d

/-- `n sec`, `n/d sec`, `n+m/d sec` and `n-m/d sec`, without a blank. -/
inductive SecondsForm : List Char → SecondsSpec → Prop
  | whole {negative : Bool} {n : List Char} (hn : Digits n) :
      SecondsForm (numeral negative n ++ ['s', 'e', 'c']) (.whole (signed negative n))
  | fraction {negative : Bool} {n d : List Char} (hn : Digits n) (hd : Digits d) :
      SecondsForm (numeral negative n ++ ('/' :: (d ++ ['s', 'e', 'c'])))
        (.fraction (signed negative n) (decimalValue d))
  | mixed {negative negative' : Bool} {n m d : List Char} (hn : Digits n) (hm : Digits m) (hd : Digits d) :
      SecondsForm (numeral negative n ++ (signedNumeral negative' m ++ ('/' :: (d ++ ['s', 'e', 'c']))))
        (.mixed (signed negative n) (signed negative' m) (decimalValue d))

/-! ## Reading a number -/

variable {c d : Cursor}

variable {rest rest' s s' : List Char} {x x' : Char}

theorem digits_append_cons (hs : Digits s) (hs' : Digits s') (hx : x.isDigit = false) (hx' : x'.isDigit = false)
    (h : s ++ x :: rest = s' ++ x' :: rest') : s = s' ∧ x = x' ∧ rest = rest' := by
  have htake : ∀ {t rest : List Char} {y : Char}, Digits t → y.isDigit = false →
      (t ++ y :: rest).takeWhile Char.isDigit = t := by
    intro t rest y ht hy
    rw [takeWhile_append_of_pos ht.2, takeWhile_cons_of_neg (by rw [hy]; decide), append_nil]
  have heq : s = s' := by
    have hleft := @htake s rest x hs hx
    rw [← hleft, h, htake hs' hx']
  subst heq
  obtain ⟨rfl, rfl⟩ := List.cons.inj (append_cancel_left h)
  exact ⟨rfl, rfl, rfl⟩

theorem Digits.ne_minus (hs : Digits s) : s ++ rest ≠ '-' :: rest' := by
  intro h
  cases s with
  | nil => exact hs.1 rfl
  | cons x s =>
    have hx : x.isDigit = true := hs.2 x (mem_cons_self ..)
    rw [(List.cons.inj h).1] at hx
    exact absurd hx (by decide)

/-- A number can be read in one way only, when something else than a digit follows. -/
theorem numeral_append_cons {negative negative' : Bool} (hs : Digits s) (hs' : Digits s') (hx : x.isDigit = false)
    (hx' : x'.isDigit = false) (h : numeral negative s ++ x :: rest = numeral negative' s' ++ x' :: rest') :
    negative = negative' ∧ s = s' ∧ x = x' ∧ rest = rest' := by
  cases negative with
  | false =>
    cases negative' with
    | false => exact ⟨rfl, digits_append_cons hs hs' hx hx' h⟩
    | true => exact absurd h hs.ne_minus
  | true =>
    cases negative' with
    | false => exact absurd h.symm hs'.ne_minus
    | true => exact ⟨rfl, digits_append_cons hs hs' hx hx' (List.cons.inj h).2⟩

theorem deterministic_frameForm : Deterministic FrameForm := by
  intro token rest token' rest' v v' h hform hform'
  cases hform with
  | mk hs =>
    cases hform' with
    | mk hs' =>
      rw [append_assoc, append_assoc] at h
      obtain ⟨rfl, rfl, -, -⟩ := numeral_append_cons hs hs' (by decide) (by decide) h
      rfl

theorem isDigit_sign (negative : Bool) : (if negative then '-' else '+').isDigit = false := by
  cases negative <;> decide

theorem deterministic_secondsForm : Deterministic SecondsForm := by
  intro token rest token' rest' v v' h hform hform'
  cases hform with
  | whole hn =>
    cases hform' with
    | whole hn' =>
      simp only [append_assoc] at h
      obtain ⟨rfl, rfl, -, -⟩ := numeral_append_cons hn hn' (by decide) (by decide) h
      rfl
    | fraction hn' hd' =>
      simp only [append_assoc] at h
      obtain ⟨-, -, hx, -⟩ := numeral_append_cons hn hn' (by decide) (by decide) h
      exact absurd hx (by decide)
    | @mixed _ sign' _ _ _ hn' hm' hd' =>
      simp only [append_assoc] at h
      obtain ⟨-, -, hx, -⟩ := numeral_append_cons hn hn' (by decide) (isDigit_sign sign') h
      cases sign' <;> exact absurd hx (by decide)
  | fraction hn hd =>
    cases hform' with
    | whole hn' =>
      simp only [append_assoc] at h
      obtain ⟨-, -, hx, -⟩ := numeral_append_cons hn hn' (by decide) (by decide) h
      exact absurd hx (by decide)
    | fraction hn' hd' =>
      simp only [append_assoc, cons_append] at h
      obtain ⟨rfl, rfl, -, htail⟩ := numeral_append_cons hn hn' (by decide) (by decide) h
      obtain ⟨rfl, -, -⟩ := digits_append_cons hd hd' (by decide) (by decide) htail
      rfl
    | @mixed _ sign' _ _ _ hn' hm' hd' =>
      simp only [append_assoc] at h
      obtain ⟨-, -, hx, -⟩ := numeral_append_cons hn hn' (by decide) (isDigit_sign sign') h
      cases sign' <;> exact absurd hx (by decide)
  | @mixed _ sign _ _ _ hn hm hd =>
    cases hform' with
    | whole hn' =>
      simp only [append_assoc] at h
      obtain ⟨-, -, hx, -⟩ := numeral_append_cons hn hn' (isDigit_sign sign) (by decide) h
      cases sign <;> exact absurd hx (by decide)
    | fraction hn' hd' =>
      simp only [append_assoc] at h
      obtain ⟨-, -, hx, -⟩ := numeral_append_cons hn hn' (isDigit_sign sign) (by decide) h
      cases sign <;> exact absurd hx (by decide)
    | @mixed _ sign' _ _ _ hn' hm' hd' =>
      simp only [append_assoc, cons_append] at h
      obtain ⟨rfl, rfl, hx, htail⟩ := numeral_append_cons hn hn' (isDigit_sign sign) (isDigit_sign sign') h
      have hsign : sign = sign' := by
        revert hx
        cases sign <;> cases sign' <;> decide
      subst hsign
      obtain ⟨rfl, -, htail⟩ := digits_append_cons hm hm' (by decide) (by decide) htail
      obtain ⟨rfl, -, -⟩ := digits_append_cons hd hd' (by decide) (by decide) htail
      rfl

/-! ## The ways through the patterns -/

theorem ways_nothing : nothing.Ways c d ↔ d = c := by
  constructor
  · rintro ⟨taken, hsplit, htaken, hgroups, hstart⟩
    obtain rfl : taken = [] := eq_nil_iff_forall_not_mem.mpr fun x hx => by cases htaken x hx
    obtain ⟨rest, atStart, groups⟩ := d
    rw [isEmpty_nil, Bool.and_true] at hstart
    dsimp only at hsplit hgroups hstart
    rw [hgroups, hstart, ← nil_append rest, ← hsplit]
  · rintro rfl
    exact ⟨[], rfl, fun x hx => absurd hx not_mem_nil, rfl, (Bool.and_true _).symm⟩

theorem ways_optional {a : Pattern} : (optional a).Ways c d ↔ a.Ways c d ∨ d = c :=
    or_congr_right ways_nothing

theorem ways_char : (Pattern.one (· == x)).Ways c d ↔ c.rest = x :: d.rest ∧ d = c.moved d.rest := by
  constructor
  · rintro ⟨y, rest, hrest, hy, rfl⟩
    obtain rfl : y = x := eq_of_beq hy
    exact ⟨hrest, rfl⟩
  · rintro ⟨hrest, hd⟩
    exact ⟨x, d.rest, hrest, beq_self_eq_true x, hd⟩

theorem ways_digits : digitsPattern.Ways c d ↔ ∃ s, Digits s ∧ c.rest = s ++ d.rest ∧ d = c.moved d.rest := by
  constructor
  · rintro ⟨e, ⟨x, rest, hrest, hx, rfl⟩, taken, hsplit, htaken, hgroups, hstart⟩
    refine ⟨x :: taken, ⟨cons_ne_nil _ _, forall_mem_cons.mpr ⟨hx, htaken⟩⟩, ?_, ?_⟩
    · rw [hrest, cons_append, ← hsplit, Cursor.moved_rest]
    · obtain ⟨rest', atStart, groups⟩ := d
      dsimp only at hgroups hstart
      rw [hgroups, hstart]
      rfl
  · rintro ⟨s, ⟨hne, hs⟩, hsplit, hd⟩
    cases s with
    | nil => exact absurd rfl hne
    | cons x s =>
      rw [forall_mem_cons] at hs
      refine ⟨c.moved (s ++ d.rest), ⟨x, _, hsplit, hs.1, rfl⟩, s, rfl, hs.2, ?_, ?_⟩
      · rw [hd]
        rfl
      · rw [hd]
        rfl

theorem ways_number : numberPattern.Ways c d ↔
    ∃ negative s, Digits s ∧ c.rest = numeral negative s ++ d.rest ∧ d = c.moved d.rest := by
  constructor
  · rintro ⟨e, he, hway⟩
    rw [ways_digits] at hway
    obtain ⟨s, hs, hsplit, hd⟩ := hway
    rcases ways_optional.mp he with he | rfl
    · rw [ways_char] at he
      refine ⟨true, s, hs, ?_, ?_⟩
      · rw [he.1, hsplit]
        rfl
      · rw [hd, he.2]
        rfl
    · exact ⟨false, s, hs, hsplit, hd⟩
  · rintro ⟨negative, s, hs, hsplit, hd⟩
    cases negative with
    | false => exact ⟨c, ways_optional.mpr (Or.inr rfl), ways_digits.mpr ⟨s, hs, hsplit, hd⟩⟩
    | true =>
      refine ⟨c.moved (s ++ d.rest), ways_optional.mpr (Or.inl ?_), ways_digits.mpr ⟨s, hs, rfl, ?_⟩⟩
      · exact ways_char.mpr ⟨hsplit, rfl⟩
      · rw [hd]
        rfl

theorem ways_signedNumber : (Pattern.seq (.one fun x => x == '-' || x == '+') digitsPattern).Ways c d ↔ ∃ negative s,
    Digits s ∧ c.rest = signedNumeral negative s ++ d.rest ∧ d = c.moved d.rest := by
  constructor
  · rintro ⟨e, ⟨x, rest, hrest, hx, rfl⟩, hway⟩
    rw [ways_digits] at hway
    obtain ⟨s, hs, hsplit, hd⟩ := hway
    rw [Bool.or_eq_true, beq_iff_eq, beq_iff_eq] at hx
    rcases hx with rfl | rfl
    · exact ⟨true, s, hs, hrest.trans (congrArg _ hsplit), hd⟩
    · exact ⟨false, s, hs, hrest.trans (congrArg _ hsplit), hd⟩
  · rintro ⟨negative, s, hs, hsplit, hd⟩
    refine ⟨c.moved (s ++ d.rest), ⟨_, _, hsplit, ?_, rfl⟩, ways_digits.mpr ⟨s, hs, rfl, ?_⟩⟩
    · cases negative <;> rfl
    · rw [hd]
      rfl

/-- A group records what was read. -/
theorem ways_group {n : ℕ} {a : Pattern} {e : Cursor} (hway : a.Ways c e) (hsplit : c.rest = s ++ e.rest) :
    (Pattern.group n a).Ways c (e.capture n s) := by
  have htake : c.rest.take (c.rest.length - e.rest.length) = s := by
    rw [hsplit, length_append, Nat.add_sub_cancel, take_left]
  exact ⟨e, hway, by rw [htake]⟩

theorem ways_sec : secPattern.Ways c d ↔ c.rest = 's' :: 'e' :: 'c' :: d.rest ∧ d = c.moved d.rest := by
  constructor
  · rintro ⟨e, he, e', he', hd⟩
    rw [ways_char] at he he' hd
    refine ⟨by rw [he.1, he'.1, hd.1], ?_⟩
    rw [hd.2, he'.2, he.2]
    rfl
  · rintro ⟨hrest, hd⟩
    refine ⟨c.moved ('e' :: 'c' :: d.rest), ways_char.mpr ⟨hrest, rfl⟩, c.moved ('c' :: d.rest),
      ways_char.mpr ⟨rfl, rfl⟩, ways_char.mpr ⟨rfl, ?_⟩⟩
    rw [hd]
    rfl

/-! ## Frame numbers -/

/-- The first group holds the number. -/
def CarriesFrames (groups : Groups) (n : ℤ) : Prop :=
  ∃ negative s, Digits s ∧ groups 1 = some (numeral negative s) ∧ n = signed negative s

theorem take_of_split (h : rest = s ++ rest') : rest.take (rest.length - rest'.length) = s := by
  rw [h, length_append, Nat.add_sub_cancel, take_left]

theorem isSome_head_numeral {stops : Char → Bool} (hdigit : ∀ c : Char, c.isDigit = true → stops c = true)
    (hminus : stops '-' = true) (negative : Bool) (hs : Digits s) (rest : List Char) :
    ∃ x ∈ (numeral negative s ++ rest).head?, stops x = true := by
  cases negative with
  | true => exact ⟨'-', rfl, hminus⟩
  | false =>
    cases s with
    | nil => exact absurd rfl hs.1
    | cons x s => exact ⟨x, rfl, hdigit x (hs.2 x (mem_cons_self ..))⟩

/-- The pattern of frame numbers. -/
theorem token_frames :
    Token (.seq (.group 1 numberPattern) (.one (· == '#'))) stopsFrames FrameForm CarriesFrames where
  sound := by
    rintro c d ⟨e, ⟨e', hnumber, rfl⟩, hway⟩ -
    rw [ways_number] at hnumber
    obtain ⟨negative, s, hs, hsplit, -⟩ := hnumber
    rw [ways_char, Cursor.capture_rest, take_of_split hsplit] at hway
    obtain ⟨hrest, hd⟩ := hway
    refine ⟨_, _, ?_, @FrameForm.mk negative s hs, negative, s, hs, ?_, rfl⟩
    · rw [hsplit, hrest, append_assoc]
      rfl
    · rw [hd, Cursor.moved_groups, Cursor.capture_groups, Function.update_self]
  complete := by
    intro token v hform c rest hsplit
    cases hform with
    | @mk negative s hs =>
      rw [append_assoc] at hsplit
      let e := c.moved ('#' :: rest)
      have hnumber : numberPattern.Ways c e := ways_number.mpr ⟨negative, s, hs, hsplit, rfl⟩
      let e' := e.capture 1 (numeral negative s)
      have hend : (Pattern.one (· == '#')).Ways e' (e'.moved rest) := ways_char.mpr ⟨rfl, rfl⟩
      exact ⟨_, e', ways_group hnumber hsplit, hend⟩
  begins := by
    intro token v hform
    cases hform with
    | mk hs => exact isSome_head_numeral (fun c hc => by simp [stopsFrames, hc]) rfl _ hs _

/-! ## Seconds -/

/-- The groups hold the numbers; those of a part which is missing did not match. -/
inductive CarriesSeconds (groups : Groups) : SecondsSpec → Prop
  | whole {negative : Bool} {n : List Char} (hn : Digits n) (h : groups 1 = some (numeral negative n))
      (hsecond : groups 2 = none) (hthird : groups 3 = none) :
      CarriesSeconds groups (.whole (signed negative n))
  | fraction {negative : Bool} {n d : List Char} (hn : Digits n) (hd : Digits d)
      (h : groups 1 = some (numeral negative n)) (hsecond : groups 2 = none) (hthird : groups 3 = some d) :
      CarriesSeconds groups (.fraction (signed negative n) (decimalValue d))
  | mixed {negative negative' : Bool} {n m d : List Char} (hn : Digits n) (hm : Digits m) (hd : Digits d)
      (h : groups 1 = some (numeral negative n)) (hsecond : groups 2 = some (signedNumeral negative' m))
      (hthird : groups 3 = some d) :
      CarriesSeconds groups (.mixed (signed negative n) (signed negative' m) (decimalValue d))

theorem ways_denominator {e : Cursor} (hslash : (Pattern.one (· == '/')).Ways c e)
    (hgroup : (Pattern.group 3 digitsPattern).Ways e d) :
    ∃ s, Digits s ∧ c.rest = '/' :: (s ++ d.rest) ∧ d.groups = Function.update c.groups 3 (some s) := by
  rw [ways_char] at hslash
  obtain ⟨e', hdigits, rfl⟩ := hgroup
  rw [ways_digits] at hdigits
  obtain ⟨s, hs, hsplit, he'⟩ := hdigits
  refine ⟨s, hs, ?_, ?_⟩
  · rw [hslash.1, hsplit]
    rfl
  · rw [Cursor.capture_groups, take_of_split hsplit, he', Cursor.moved_groups, hslash.2, Cursor.moved_groups]

theorem exists_ways_denominator (hs : Digits s) (h : c.rest = '/' :: (s ++ rest)) :
    ∃ e d, (Pattern.one (· == '/')).Ways c e ∧ (Pattern.group 3 digitsPattern).Ways e d ∧ d.rest = rest := by
  let e := c.moved (s ++ rest)
  have hslash : (Pattern.one (· == '/')).Ways c e := ways_char.mpr ⟨h, rfl⟩
  have hdigits : digitsPattern.Ways e (e.moved rest) := ways_digits.mpr ⟨s, hs, rfl, rfl⟩
  exact ⟨e, _, hslash, ways_group hdigits rfl, rfl⟩

/-- The pattern of seconds. -/
theorem token_seconds :
    Token (.seq (.group 1 numberPattern) (.seq fractionPattern secPattern)) stopsSeconds SecondsForm
      CarriesSeconds where
  sound := by
    rintro c d ⟨e, ⟨e', hnumber, rfl⟩, f, hfraction, hsec⟩ hnone
    rw [ways_number] at hnumber
    obtain ⟨negative, n, hn, hsplit, he'⟩ := hnumber
    rw [take_of_split hsplit] at hfraction
    have hgroups : (e'.capture 1 (numeral negative n)).groups =
        Function.update (fun _ => none) 1 (some (numeral negative n)) := by
      rw [Cursor.capture_groups, he', Cursor.moved_groups, hnone]
    have hrest : (e'.capture 1 (numeral negative n)).rest = e'.rest := rfl
    generalize e'.capture 1 (numeral negative n) = e at *
    rw [ways_sec] at hsec
    obtain ⟨hsec, hd⟩ := hsec
    have hfinal : d.groups = f.groups := by
      rw [hd, Cursor.moved_groups]
    rcases ways_optional.mp hfraction with ⟨g, hsigned, g', hslash, hdenominator⟩ | rfl
    · obtain ⟨s, hs, hg, hfgroups⟩ := ways_denominator hslash hdenominator
      rcases ways_optional.mp hsigned with ⟨g'', hway, rfl⟩ | rfl
      · -- both parts
        rw [ways_signedNumber] at hway
        obtain ⟨negative', m, hm, hsplit', hg''⟩ := hway
        rw [take_of_split hsplit'] at hfgroups
        have hsame : g''.groups = e.groups := by
          rw [hg'', Cursor.moved_groups]
        refine ⟨_, _, ?_, @SecondsForm.mixed negative negative' n m s hn hm hs, .mixed hn hm hs ?_ ?_ ?_⟩
        · rw [hsplit, ← hrest, hsplit', ← Cursor.capture_rest g'' 2, hg, hsec]
          simp only [append_assoc, cons_append, nil_append]
        · simp [hfinal, hfgroups, hsame, hgroups]
        · simp [hfinal, hfgroups]
        · simp [hfinal, hfgroups]
      · -- a fraction only
        refine ⟨_, _, ?_, @SecondsForm.fraction negative n s hn hs, .fraction hn hs ?_ ?_ ?_⟩
        · rw [hsplit, ← hrest, hg, hsec]
          simp only [append_assoc, cons_append, nil_append]
        · simp [hfinal, hfgroups, hgroups]
        · simp [hfinal, hfgroups, hgroups]
        · simp [hfinal, hfgroups]
    · refine ⟨_, _, ?_, @SecondsForm.whole negative n hn, .whole hn ?_ ?_ ?_⟩
      · rw [hsplit, ← hrest, hsec, append_assoc]
        rfl
      · simp [hfinal, hgroups]
      · simp [hfinal, hgroups]
      · simp [hfinal, hgroups]
  complete := by
    intro token v hform c rest hsplit
    -- the number in front, and what follows
    have hlead : ∀ {negative : Bool} {n tail : List Char}, Digits n → c.rest = numeral negative n ++ tail →
        ∃ e, (Pattern.group 1 numberPattern).Ways c e ∧ e.rest = tail := by
      intro negative n tail hn h
      have hnumber : numberPattern.Ways c (c.moved tail) := ways_number.mpr ⟨negative, n, hn, h, rfl⟩
      exact ⟨_, ways_group hnumber h, rfl⟩
    have hend : ∀ {f : Cursor}, f.rest = 's' :: 'e' :: 'c' :: rest → secPattern.Ways f (f.moved rest) :=
      fun h => ways_sec.mpr ⟨h, rfl⟩
    cases hform with
    | whole hn =>
      rw [append_assoc] at hsplit
      obtain ⟨e, he, hrest⟩ := hlead hn hsplit
      exact ⟨_, e, he, e, ways_optional.mpr (Or.inr rfl), hend hrest⟩
    | fraction hn hd =>
      simp only [append_assoc, cons_append] at hsplit
      obtain ⟨e, he, hrest⟩ := hlead hn hsplit
      obtain ⟨g, f, hslash, hdenominator, hf⟩ := exists_ways_denominator hd hrest
      refine ⟨_, e, he, f, ways_optional.mpr (Or.inl ?_), hend hf⟩
      exact ⟨e, ways_optional.mpr (Or.inr rfl), g, hslash, hdenominator⟩
    | @mixed _ negative' _ m d hn hm hd =>
      simp only [append_assoc, cons_append] at hsplit
      obtain ⟨e, he, hrest⟩ := hlead hn hsplit
      have hsigned := ways_signedNumber (c := e) (d := e.moved ('/' :: (d ++ 's' :: 'e' :: 'c' :: rest)))
        |>.mpr ⟨negative', m, hm, hrest, rfl⟩
      obtain ⟨g, f, hslash, hdenominator, hf⟩ := exists_ways_denominator hd
        (c := (e.moved ('/' :: (d ++ 's' :: 'e' :: 'c' :: rest))).capture 2 (signedNumeral negative' m)) rfl
      refine ⟨_, e, he, f, ways_optional.mpr (Or.inl ?_), hend hf⟩
      exact ⟨_, ways_optional.mpr (Or.inl (ways_group hsigned hrest)), g, hslash, hdenominator⟩
  begins := by
    intro token v hform
    have hdigit : ∀ c : Char, c.isDigit = true → stopsSeconds c = true := fun c hc => by
      simp [stopsSeconds, hc]
    cases hform with
    | whole hn => exact isSome_head_numeral hdigit rfl _ hn _
    | fraction hn hd => exact isSome_head_numeral hdigit rfl _ hn _
    | mixed hn hm hd => exact isSome_head_numeral hdigit rfl _ hn _

end Lumiera.Lib.RawTime
