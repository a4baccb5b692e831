import Lumiera.Lib.Time.GridAlignment
import Lumiera.Lib.Time.Timecode
import Lumiera.Lib.Time.TimeLimitsSeconds

/-! # Which time specifications are parsed right

Parsing should return the time specified, and report all other texts as an invalid timecode. A text
without any specification is reported, yet the conversions have exceptions of their own: for a number
which is too large, and for a denominator which is zero. Frame numbers moreover may be beyond the range
of times. -/

namespace Lumiera.Lib.RawTime

open Pattern

/-! ## Conversion of numbers -/

/-- An `int` can hold this number. -/
def FitsInt (v : ℤ) : Prop := -2 ^ 31 ≤ v ∧ v < 2 ^ 31

instance (v : ℤ) : Decidable (FitsInt v) := inferInstanceAs (Decidable (_ ∧ _))

variable {s : List Char}

theorem splitSign_numeral (negative : Bool) (hs : Digits s) : splitSign (numeral negative s) = (negative, s) := by
  cases negative with
  | true => rfl
  | false =>
    cases s with
    | nil => rfl
    | cons x s =>
      have hx : x.isDigit = true := hs.2 x (List.mem_cons_self ..)
      have hminus : x ≠ '-' := by
        rintro rfl
        exact absurd hx (by decide)
      have hplus : x ≠ '+' := by
        rintro rfl
        exact absurd hx (by decide)
      change splitSign (x :: s) = _
      rw [splitSign, if_neg hminus, if_neg hplus]

theorem splitSign_signedNumeral (negative : Bool) (s : List Char) :
    splitSign (signedNumeral negative s) = (negative, s) := by
  cases negative <;> rfl

variable {digits : List Char} {negative : Bool}

theorem lexicalCast_eq {width : ℕ}
    (hsplit : splitSign s = (negative, digits)) (hs : Digits digits) :
    lexicalCast width s = if -2 ^ (width - 1) ≤ signed negative digits ∧ signed negative digits < 2 ^ (width - 1)
      then .ok (signed negative digits) else .error .badLexicalCast := by
  have hall : digits.all Char.isDigit = true := List.all_eq_true.mpr hs.2
  rw [lexicalCast, hsplit]
  simp only [hall, hs.1, ne_eq, not_false_eq_true, true_and]

theorem castInt_of_fits (hsplit : splitSign s = (negative, digits)) (hs : Digits digits)
    (h : FitsInt (signed negative digits)) : ∃ n : Int32, castInt s = .ok n ∧ n.toInt = signed negative digits := by
  refine ⟨Int32.ofInt (signed negative digits), ?_, ?_⟩
  · rw [castInt, lexicalCast_eq hsplit hs]
    exact congrArg (Except.map Int32.ofInt) (if_pos h)
  · obtain ⟨hlow, hhigh⟩ := h
    rw [Int32.toInt_ofInt, Int.bmod_def]
    have hsize : (Int32.size : ℤ) = 2 ^ 32 := rfl
    rw [hsize]
    omega

theorem castInt_of_not_fits (hsplit : splitSign s = (negative, digits)) (hs : Digits digits)
    (h : ¬ FitsInt (signed negative digits)) : castInt s = .error .badLexicalCast := by
  rw [castInt, lexicalCast_eq hsplit hs]
  exact congrArg (Except.map Int32.ofInt) (if_neg h)

/-! ## Frame numbers -/

variable {text : List Char} {grid : PQuant} {bits : ℕ}

/-- **Frame numbers are parsed right**: the result is the time of the frame; or else there is no such
time, and this is reported. -/
def FramesMeets (text : List Char) (grid : PQuant) : Prop :=
  (∃ n, Leftmost stopsFrames FrameForm text n ∧ InTicks (grid.startOf n) ∧
    ∃ t, Frames.parse text grid = .ok t ∧ t.toInt = grid.startOf n) ∨
  (∀ n, Leftmost stopsFrames FrameForm text n → ¬ InTicks (grid.startOf n)) ∧
    ∃ desc, Frames.parse text grid = .error (.invalidTimecode desc)

theorem representable_of_inTicks {n : ℤ} (h : InTicks (grid.startOf n)) : Representable n := by
  have hpos := grid.raster_toInt_pos
  obtain ⟨hlow, hhigh⟩ := (FixedFrameQuantiser.near_of_inTicks h).product
  constructor <;> nlinarith

theorem parse_frames {n : ℤ} (h : Leftmost stopsFrames FrameForm text n) :
    Frames.parse text grid = if Representable n then .ok (grid.timeOf (Int64.ofInt n))
      else .error .badLexicalCast := by
  cases hsearch : frameNrParser.search text true 0 with
  | none => exact absurd h (token_frames.not_leftmost_of_search hsearch n)
  | some mat =>
    obtain ⟨n', hleftmost, negative, s, hs, hgroup, rfl⟩ := token_frames.leftmost_of_search hsearch
    obtain rfl := h.unique deterministic_frameForm hleftmost
    have hsub : subExpr mat 1 = numeral negative s := by
      rw [subExpr, hgroup]
      rfl
    have hrange : Representable (signed negative s) ↔
        -2 ^ (64 - 1) ≤ signed negative s ∧ signed negative s < 2 ^ (64 - 1) := Iff.rfl
    rw [Frames.parse, hsearch]
    simp only [hsub, castFrameCnt, lexicalCast_eq (splitSign_numeral negative hs) hs, ← hrange]
    split_ifs
    · rfl
    · rfl

theorem parse_frames_none (h : ∀ n, ¬ Leftmost stopsFrames FrameForm text n) :
    ∃ desc, Frames.parse text grid = .error (.invalidTimecode desc) := by
  cases hsearch : frameNrParser.search text true 0 with
  | none => exact ⟨_, by rw [Frames.parse, hsearch]⟩
  | some mat =>
    obtain ⟨n, hleftmost, -⟩ := token_frames.leftmost_of_search hsearch
    exact absurd hleftmost (h n)

/-- Frame numbers within the range of times are those which are parsed right. -/
theorem framesMeets_iff : FramesMeets text grid ↔
    ∀ n, Leftmost stopsFrames FrameForm text n → InTicks (grid.startOf n) := by
  constructor
  · rintro (⟨n, hleftmost, hin, -⟩ | ⟨-, desc, hfails⟩) n' hleftmost'
    · obtain rfl := hleftmost.unique deterministic_frameForm hleftmost'
      exact hin
    · rw [parse_frames hleftmost'] at hfails
      split_ifs at hfails
      cases hfails
  · intro h
    by_cases hnone : ∀ n, ¬ Leftmost stopsFrames FrameForm text n
    · exact Or.inr ⟨fun n hleftmost => absurd hleftmost (hnone n), parse_frames_none hnone⟩
    · push Not at hnone
      obtain ⟨n, hleftmost⟩ := hnone
      have hin := h n hleftmost
      have hn := (FixedFrameQuantiser.near_of_inTicks hin).toInt_ofInt
      refine Or.inl ⟨n, hleftmost, hin, grid.timeOf (Int64.ofInt n), ?_, ?_⟩
      · rw [parse_frames hleftmost, if_pos (representable_of_inTicks hin)]
      · rw [FixedFrameQuantiser.toInt_timeOf_of_inTicks (by rwa [hn]), hn]

/-! ## Fractional seconds -/

/-- **The numbers can be represented**, and the denominator is not zero. -/
def SecondsSpec.Representable : SecondsSpec → Prop
  | whole n => FitsInt n
  | fraction n d => FitsInt n ∧ FitsInt d ∧ d ≠ 0
  | mixed n m d => FitsInt n ∧ FitsInt m ∧ FitsInt d ∧ d ≠ 0

theorem value_fsecs (num den : Int32) (hden : 0 < den.toInt) :
    (fsecs num den hden).value = num.toInt / den.toInt := by
  obtain ⟨hnum, hdenominator⟩ := toInt_cancelled num den hden
  have hnumber := Int.ediv_mul_cancel (Int.gcd_dvd_left (a := num.toInt) (b := den.toInt))
  have hdivisor := Int.ediv_mul_cancel (Int.gcd_dvd_right (a := num.toInt) (b := den.toInt))
  have hpos := (fsecs num den hden).denominator_pos
  unfold fsecs at hpos
  rw [hdenominator] at hpos
  unfold Rational.value fsecs
  rw [hnum, hdenominator, div_eq_div_iff (by exact_mod_cast hpos.ne') (by exact_mod_cast hden.ne')]
  -- the common factor cancels on both sides
  have hcross : num.toInt / Int.gcd num.toInt den.toInt * den.toInt =
      num.toInt * (den.toInt / Int.gcd num.toInt den.toInt) := by
    generalize (Int.gcd num.toInt den.toInt : ℤ) = common at *
    linear_combination (den.toInt / common) * hnumber - (num.toInt / common) * hdivisor
  exact_mod_cast hcross

theorem value_addSeconds (q : {q : Rational // q.Small}) (n : Int32) :
    (addSeconds q n).value = n.toInt + q.1.value := by
  have hden : (q.1.denominator.toInt : ℚ) ≠ 0 := by exact_mod_cast q.1.denominator_pos.ne'
  unfold Rational.value addSeconds
  rw [toInt_add_mul q.2]
  push_cast
  field_simp
  ring

theorem value_wholeSeconds (n : Int32) : (wholeSeconds n).value = n.toInt := by
  simp [Rational.value, wholeSeconds]

variable {q : Rational}

/-- The time on the grid: it misses the proper value by less than a micro tick. -/
theorem toInt_timeOfSeconds (hbits : 64 ≤ bits) (grid : PQuant)
    (hq : |q.numerator.toInt| ≤ 2 ^ 33 * q.denominator.toInt) :
    |((grid.timeOfSeconds bits q 0).toInt : ℚ) - (grid.origin_.toInt + q.value * 1000000)| < 1 := by
  have hpos := q.denominator_pos
  have hposQ : (0 : ℚ) < q.denominator.toInt := by exact_mod_cast hpos
  have hsmall : q.numerator.toInt = -2 ^ 63 ∨ |q.numerator.toInt| ≤ FSEC_MAX.toInt * q.denominator.toInt := by
    rw [toInt_FSEC_MAX]
    omega
  obtain ⟨ticks, hticks, herror⟩ := reQuant_eq hbits q
  have hvalue : |q.value| ≤ 2 ^ 33 := by
    rw [Rational.value, abs_div, abs_of_pos hposQ, div_le_iff₀ hposQ]
    exact_mod_cast hq
  obtain ⟨hvalueLow, hvalueHigh⟩ := abs_le.mp hvalue
  obtain ⟨herrorLow, herrorHigh⟩ := abs_lt.mp herror
  rw [secondsExact] at herrorLow herrorHigh
  have hlow : -10 ^ 17 < ticks := by
    have hlow' : ((-10 ^ 17 : ℤ) : ℚ) < ticks := by
      push_cast
      linarith
    exact_mod_cast hlow'
  have hhigh : ticks < 10 ^ 17 := by
    have hhigh' : (ticks : ℚ) < (10 ^ 17 : ℤ) := by
      push_cast
      linarith
    exact_mod_cast hhigh'
  have hfits : RawTime.Representable ticks := ⟨by omega, by omega⟩
  rw [hfits.bmod, ← rationalToTime_of_small hsmall] at hticks
  have hlimited : (limitedTime (rationalToTime bits q)).toInt = ticks := by
    rw [limitedTime, toInt_symmetricLimit _ (by decide), toInt_timeMax]
    split_ifs <;> omega
  have horigin := (inTimeRange_iff _).mp grid.origin_range
  have hoffset : symmetricLimit (symmetricLimit grid.raster_ durationMax * (0 : Int32).toInt64) durationMax = 0 := by
    have hzero : (0 : Int32).toInt64 = 0 := rfl
    rw [hzero, Int64.mul_zero]
    rfl
  have htime : (grid.timeOfSeconds bits q 0).toInt = grid.origin_.toInt + ticks := by
    rw [FixedFrameQuantiser.timeOfSeconds]
    simp only [hoffset, Int64.add_zero]
    rw [Int64.toInt_add, hlimited, Representable.bmod ⟨by omega, by omega⟩]
    ring
  rw [htime]
  push_cast
  rw [add_sub_add_left_eq_sub]
  exact herror

/-- **Seconds are parsed right**: the result is the time specified, up to a micro tick; or else the
specification is not valid, and this is reported. -/
def SecondsMeets (bits : ℕ) (text : List Char) (grid : PQuant) : Prop :=
  (∃ v, Leftmost stopsSeconds SecondsForm text v ∧ v.Representable ∧
    ∃ t, Seconds.parse bits text grid = .ok t ∧
      |(t.toInt : ℚ) - (grid.origin_.toInt + v.value * 1000000)| < 1) ∨
  (∀ v, Leftmost stopsSeconds SecondsForm text v → ¬ v.Representable) ∧
    ∃ desc, Seconds.parse bits text grid = .error (.invalidTimecode desc)

theorem castInt_cases (hsplit : splitSign s = (negative, digits)) (hs : Digits digits) :
    (FitsInt (signed negative digits) ∧ ∃ n : Int32, castInt s = .ok n ∧ n.toInt = signed negative digits) ∨
    ¬ FitsInt (signed negative digits) ∧ castInt s = .error .badLexicalCast := by
  by_cases h : FitsInt (signed negative digits)
  · exact Or.inl ⟨h, castInt_of_fits hsplit hs h⟩
  · exact Or.inr ⟨h, castInt_of_not_fits hsplit hs h⟩

theorem makeFSecs_of_pos (num : Int32) {den : Int32} (h : 0 < den.toInt) :
    ∃ q, makeFSecs num den = .ok q ∧ q.1.value = num.toInt / den.toInt :=
  ⟨_, dif_pos h, value_fsecs num den h⟩

theorem makeFSecs_of_zero (num : Int32) {den : Int32} (h : den.toInt = 0) :
    makeFSecs num den = .error .badRational := by
  rw [makeFSecs, dif_neg (by omega)]

theorem Rational.Small.abs_numerator_le (hq : q.Small) : |q.numerator.toInt| ≤ 2 ^ 33 * q.denominator.toInt := by
  obtain ⟨hlow, hhigh, -⟩ := hq
  have hpos := q.denominator_pos
  rw [abs_le]
  constructor <;> omega

theorem abs_numerator_addSeconds_le (q : {q : Rational // q.Small}) (n : Int32) :
    |(addSeconds q n).numerator.toInt| ≤ 2 ^ 33 * (addSeconds q n).denominator.toInt := by
  obtain ⟨hlow, hhigh, -⟩ := q.2
  have hpos := q.1.denominator_pos
  have hnlow := n.le_toInt
  have hnhigh := n.toInt_lt
  unfold addSeconds
  rw [toInt_add_mul q.2, abs_le]
  constructor <;> nlinarith

theorem abs_numerator_wholeSeconds_le (n : Int32) :
    |(wholeSeconds n).numerator.toInt| ≤ 2 ^ 33 * (wholeSeconds n).denominator.toInt := by
  have hnlow := n.le_toInt
  have hnhigh := n.toInt_lt
  have hone : (1 : Int64).toInt = 1 := rfl
  simp only [wholeSeconds, Int32.toInt_toInt64]
  rw [abs_le]
  constructor <;> omega

/-- The time computed for a specification. -/
def Computed (bits : ℕ) (grid : PQuant) (v : SecondsSpec) (result : Except ParseError gavl_time_t) : Prop :=
  (v.Representable → ∃ q : Rational, q.value = v.value ∧
    |q.numerator.toInt| ≤ 2 ^ 33 * q.denominator.toInt ∧ result = .ok (grid.timeOfSeconds bits q 0)) ∧
  (¬ v.Representable → result = .error .badLexicalCast ∨ result = .error .badRational)

variable {v : SecondsSpec} {result : Except ParseError gavl_time_t}

theorem Computed.of_fails {e : ParseError} (hnot : ¬ v.Representable) (he : e = .badLexicalCast ∨ e = .badRational)
    (hresult : result = .error e) : Computed bits grid v result := by
  refine ⟨fun h => absurd h hnot, fun _ => ?_⟩
  rcases he with rfl | rfl
  · exact Or.inl hresult
  · exact Or.inr hresult

theorem Computed.of_value (hrep : v.Representable) (hvalue : q.value = v.value)
    (hnum : |q.numerator.toInt| ≤ 2 ^ 33 * q.denominator.toInt)
    (hresult : result = .ok (grid.timeOfSeconds bits q 0)) : Computed bits grid v result :=
  ⟨fun _ => ⟨q, hvalue, hnum, hresult⟩, fun hnot => absurd hrep hnot⟩

/-- A fraction is read: both numbers have to fit, and the denominator must not be zero. -/
theorem fraction_cases {α : Type} {d : List Char}
    (hsplit : splitSign s = (negative, digits)) (hs : Digits digits) (hd : Digits d)
    (k : {q : Rational // q.Small} → Except ParseError α) :
    let result := (castInt s).bind fun num => (castInt d).bind fun den => (makeFSecs num den).bind k
    ((FitsInt (signed negative digits) ∧ FitsInt (decimalValue d) ∧ decimalValue d ≠ 0) ∧
      ∃ q, q.1.value = (signed negative digits : ℚ) / decimalValue d ∧ result = k q) ∨
    ¬ (FitsInt (signed negative digits) ∧ FitsInt (decimalValue d) ∧ decimalValue d ≠ 0) ∧
      ∃ e, (e = .badLexicalCast ∨ e = .badRational) ∧ result = .error e := by
  obtain ⟨hfits, i, hcast, hi⟩ | ⟨hnot, hcast⟩ := castInt_cases hsplit hs
  · have hsplit' : splitSign d = (false, d) := splitSign_numeral false hd
    obtain ⟨hfits', j, hcast', hj⟩ | ⟨hnot, hcast'⟩ := castInt_cases hsplit' hd
    · have hden : signed false d = decimalValue d := rfl
      rcases Nat.eq_zero_or_pos (decimalValue d) with hzero | hpos
      · refine Or.inr ⟨fun h => h.2.2 hzero, .badRational, Or.inr rfl, ?_⟩
        have hden0 : j.toInt = 0 := by omega
        simp only [hcast, hcast', Except.bind, makeFSecs_of_zero i hden0]
      · have hden0 : 0 < j.toInt := by omega
        obtain ⟨q, hq, hvalue⟩ := makeFSecs_of_pos i hden0
        refine Or.inl ⟨⟨hfits, hfits', hpos.ne'⟩, q, ?_, ?_⟩
        · rw [hvalue, hi, hj]
          rfl
        · simp only [hcast, hcast', Except.bind, hq]
    · refine Or.inr ⟨fun h => hnot h.2.1, .badLexicalCast, Or.inl rfl, ?_⟩
      simp only [hcast, hcast', Except.bind]
  · refine Or.inr ⟨fun h => hnot h.1, .badLexicalCast, Or.inl rfl, ?_⟩
    simp only [hcast, Except.bind]

/-- What is done with the first specification found: its numbers are converted. -/
theorem parse_seconds (h : Leftmost stopsSeconds SecondsForm text v) :
    Computed bits grid v (Seconds.parse bits text grid) := by
  cases hsearch : fracSecsParser.search text true 0 with
  | none => exact absurd h (token_seconds.not_leftmost_of_search hsearch v)
  | some mat =>
    obtain ⟨v', hleftmost, hcarries⟩ := token_seconds.leftmost_of_search hsearch
    obtain rfl := h.unique deterministic_secondsForm hleftmost
    have hsub : ∀ {n : ℕ} {s : List Char}, mat.groups n = some s → subExpr mat n = s := by
      intro n s hgroup
      rw [subExpr, hgroup]
      rfl
    rw [Seconds.parse, hsearch]
    dsimp only
    cases hcarries with
    | @whole negative n hn hfirst hsecond hthird =>
      rw [hsecond, hthird, hsub hfirst]
      obtain ⟨hfits, i, hcast, hi⟩ | ⟨hnot, hcast⟩ := castInt_cases (splitSign_numeral negative hn) hn
      · refine .of_value hfits ?_ (abs_numerator_wholeSeconds_le i) ?_
        · rw [value_wholeSeconds, hi]
          rfl
        · rw [hcast]
          rfl
      · refine .of_fails hnot (Or.inl rfl) ?_
        rw [hcast]
        rfl
    | @fraction negative n d hn hd hfirst hsecond hthird =>
      rw [hsecond, hthird, hsub hfirst, hsub hthird]
      obtain ⟨hrep, q, hvalue, hresult⟩ | ⟨hnot, e, he, hresult⟩ :=
        fraction_cases (splitSign_numeral negative hn) hn hd
          fun q => .ok (grid.timeOfSeconds bits q.1 0)
      · exact .of_value hrep hvalue q.2.abs_numerator_le hresult
      · exact .of_fails hnot he hresult
    | @mixed negative negative' n m d hn hm hd hfirst hsecond hthird =>
      rw [hsecond, hsub hfirst, hsub hsecond, hsub hthird]
      obtain ⟨hrep, q, hvalue, hresult⟩ | ⟨hnot, e, he, hresult⟩ :=
        fraction_cases (splitSign_signedNumeral negative' m) hm hd fun q =>
          (castInt (numeral negative n)).bind fun full =>
            .ok (grid.timeOfSeconds bits (addSeconds q full) 0)
      · obtain ⟨hfits, i, hcast, hi⟩ | ⟨hnot, hcast⟩ := castInt_cases (splitSign_numeral negative hn) hn
        · refine .of_value ⟨hfits, hrep⟩ ?_ (abs_numerator_addSeconds_le q i) (hresult.trans ?_)
          · rw [value_addSeconds, hvalue, hi]
            rfl
          · rw [hcast]
            rfl
        · refine .of_fails (fun hrep => hnot hrep.1) (Or.inl rfl) (hresult.trans ?_)
          rw [hcast]
          rfl
      · exact .of_fails (fun hrep => hnot hrep.2) he hresult

theorem parse_seconds_none (h : ∀ v, ¬ Leftmost stopsSeconds SecondsForm text v) :
    ∃ desc, Seconds.parse bits text grid = .error (.invalidTimecode desc) := by
  cases hsearch : fracSecsParser.search text true 0 with
  | none => exact ⟨_, by rw [Seconds.parse, hsearch]⟩
  | some mat =>
    obtain ⟨v, hleftmost, -⟩ := token_seconds.leftmost_of_search hsearch
    exact absurd hleftmost (h v)

/-- Seconds which can be represented are those which are parsed right. -/
theorem secondsMeets_iff (hbits : 64 ≤ bits) : SecondsMeets bits text grid ↔
    ∀ v, Leftmost stopsSeconds SecondsForm text v → v.Representable := by
  constructor
  · rintro (⟨v, hleftmost, hrep, -⟩ | ⟨hnot, desc, hfails⟩) v' hleftmost'
    · obtain rfl := hleftmost.unique deterministic_secondsForm hleftmost'
      exact hrep
    · have hall : Computed bits grid v' (Seconds.parse bits text grid) := parse_seconds hleftmost'
      have hcomputed := hall.2 (hnot v' hleftmost')
      rw [hfails] at hcomputed
      rcases hcomputed with hcomputed | hcomputed <;> cases hcomputed
  · intro h
    by_cases hnone : ∀ v, ¬ Leftmost stopsSeconds SecondsForm text v
    · exact Or.inr ⟨fun v hleftmost => absurd hleftmost (hnone v), parse_seconds_none hnone⟩
    · push Not at hnone
      obtain ⟨v, hleftmost⟩ := hnone
      have hall : Computed bits grid v (Seconds.parse bits text grid) := parse_seconds hleftmost
      obtain ⟨q, hvalue, hnum, hresult⟩ := hall.1 (h v hleftmost)
      refine Or.inl ⟨v, hleftmost, h v hleftmost, _, hresult, ?_⟩
      rw [← hvalue]
      exact toInt_timeOfSeconds hbits grid hnum

/-! ## Both formats -/

/-- Frames of one second. -/
def oneSecondFrames : PQuant where
  origin_ := 0
  raster_ := 1000000
  origin_range := FixedFrameQuantiser.zero_range
  raster_pos := FixedFrameQuantiser.second_pos
  raster_le := FixedFrameQuantiser.second_le

/-- **When a text is parsed right**: the first frame number of the text, if any, is at a valid time; and
the numbers of the first specification in seconds can be represented, with a denominator other than zero. -/
theorem parse_meets_iff (hbits : 64 ≤ bits) (text : List Char) (grid : PQuant) :
    (FramesMeets text grid ↔ ∀ n, Leftmost stopsFrames FrameForm text n → InTicks (grid.startOf n)) ∧
    (SecondsMeets bits text grid ↔ ∀ v, Leftmost stopsSeconds SecondsForm text v → v.Representable) :=
  ⟨framesMeets_iff, secondsMeets_iff hbits⟩

/-- One and a half seconds, and no frame number. -/
theorem parse_meets_iff_sec : (64 ≤ 64) ∧
    (FramesMeets "x1+1/2sec".toList oneSecondFrames ↔
      ∀ n, Leftmost stopsFrames FrameForm "x1+1/2sec".toList n → InTicks (oneSecondFrames.startOf n)) ∧
    Seconds.parse 64 "x1+1/2sec".toList oneSecondFrames = .ok 1500000 :=
  ⟨le_rfl, (parse_meets_iff (le_refl 64) _ _).1, by decide +kernel⟩

/-- A denominator of zero, a number of seconds which is no `int`, a frame which is no 64-bit integer:
none of them is reported as an invalid timecode. -/
theorem not_parse_meets : ¬ SecondsMeets 64 "1/0sec".toList oneSecondFrames ∧
    ¬ SecondsMeets 64 "3000000000sec".toList oneSecondFrames ∧
    ¬ FramesMeets "9223372036854775808#".toList oneSecondFrames := by
  have hzero : Seconds.parse 64 "1/0sec".toList oneSecondFrames = .error .badRational := by decide +kernel
  have hsecs : Seconds.parse 64 "3000000000sec".toList oneSecondFrames = .error .badLexicalCast := by
    decide +kernel
  have hframes : Frames.parse "9223372036854775808#".toList oneSecondFrames = .error .badLexicalCast := by
    decide +kernel
  refine ⟨?_, ?_, ?_⟩
  · rintro (⟨v, -, -, t, hparse, -⟩ | ⟨-, desc, hparse⟩) <;> rw [hzero] at hparse <;> cases hparse
  · rintro (⟨v, -, -, t, hparse, -⟩ | ⟨-, desc, hparse⟩) <;> rw [hsecs] at hparse <;> cases hparse
  · rintro (⟨n, -, -, t, hparse, -⟩ | ⟨-, desc, hparse⟩) <;> rw [hframes] at hparse <;> cases hparse

end Lumiera.Lib.RawTime
