import Lumiera.Lib.Time.FrameQuantisation

/-! # Building a time from components (`lumiera_build_time`)

A time value is the sum of components. Milliseconds are given in 64 bits, while the numbers of
seconds, minutes and hours are 32-bit numbers without sign; the product with the number of
milliseconds is computed in this narrow type, and only the sum is a 64-bit number again. -/

namespace Lumiera.Lib.RawTime

/-- The number of micro ticks in a millisecond. -/
def TIME_SCALE_MS : gavl_time_t := SCALE / 1000

/-- `lumiera_build_time` -/
def buildTime (millis : Int64) (secs mins hours : UInt32) : gavl_time_t :=
  let time := millis
    + widened (1000 * secs)
    + widened (1000 * 60 * mins)
    + widened (1000 * 60 * 60 * hours)
  time * TIME_SCALE_MS

/-- `lumiera_time_hours` -/
def timeHours (time : gavl_time_t) : Int32 := (time / TIME_SCALE_MS / 1000 / 60 / 60).toInt32

/-- `lumiera_time_minutes` -/
def timeMinutes (time : gavl_time_t) : Int32 := (time / TIME_SCALE_MS / 1000 / 60 % 60).toInt32

/-- `lumiera_time_seconds` -/
def timeSeconds (time : gavl_time_t) : Int32 := (time / TIME_SCALE_MS / 1000 % 60).toInt32

/-- `lumiera_time_millis` -/
def timeMillis (time : gavl_time_t) : Int32 := (time / TIME_SCALE_MS % 1000).toInt32

/-! ## What is expected -/

/-- The sum of the components, in milliseconds. -/
def totalMillis (millis : Int64) (secs mins hours : UInt32) : ℤ :=
  millis.toInt + 1000 * secs.toNat + 60000 * mins.toNat + 3600000 * hours.toNat

/-- The components of a time. -/
structure TimeParts where
  millis : ℤ
  secs : ℤ
  mins : ℤ
  hours : ℤ
  deriving DecidableEq, Repr

namespace TimeParts

/-- The components which the extraction functions deliver for a time. -/
def extracted (time : gavl_time_t) : TimeParts :=
  ⟨(timeMillis time).toInt, (timeSeconds time).toInt, (timeMinutes time).toInt, (timeHours time).toInt⟩

/-- **The normalised components** of a number of milliseconds: they sum up to this number, all but
the hours stay below the next larger unit, and none has the opposite sign. -/
structure Normalise (parts : TimeParts) (total : ℤ) : Prop where
  sum_eq : parts.millis + 1000 * parts.secs + 60000 * parts.mins + 3600000 * parts.hours = total
  millis_lt : |parts.millis| < 1000
  secs_lt : |parts.secs| < 60
  mins_lt : |parts.mins| < 60
  nonneg : 0 ≤ total → 0 ≤ parts.millis ∧ 0 ≤ parts.secs ∧ 0 ≤ parts.mins ∧ 0 ≤ parts.hours
  nonpos : total ≤ 0 → parts.millis ≤ 0 ∧ parts.secs ≤ 0 ∧ parts.mins ≤ 0 ∧ parts.hours ≤ 0

end TimeParts

/-- **A time is built as expected**: it is the exact sum of the components in micro ticks, and its
decomposition gives the normalised components back. -/
structure BuiltExactly (millis : Int64) (secs mins hours : UInt32) : Prop where
  exact_sum : (buildTime millis secs mins hours).toInt = 1000 * totalMillis millis secs mins hours
  decomposed : (TimeParts.extracted (buildTime millis secs mins hours)).Normalise
    (totalMillis millis secs mins hours)

/-! ## The sum -/

variable {millis : Int64} {secs mins hours : UInt32} {time : gavl_time_t}

theorem toInt_TIME_SCALE_MS : TIME_SCALE_MS.toInt = 1000 := by decide

theorem toInt_buildTime : (buildTime millis secs mins hours).toInt =
    (1000 * (millis.toInt + (1000 * secs.toNat % 2 ^ 32 : ℕ) + (60000 * mins.toNat % 2 ^ 32 : ℕ) +
      (3600000 * hours.toNat % 2 ^ 32 : ℕ))).bmod (2 ^ 64) := by
  have hsecs : (1000 * secs).toNat = 1000 * secs.toNat % 2 ^ 32 := UInt32.toNat_mul 1000 secs
  have hmins : (1000 * 60 * mins).toNat = 60000 * mins.toNat % 2 ^ 32 := UInt32.toNat_mul _ mins
  have hhours : (1000 * 60 * 60 * hours).toNat = 3600000 * hours.toNat % 2 ^ 32 :=
    UInt32.toNat_mul _ hours
  unfold buildTime
  simp only [Int64.toInt_mul, Int64.toInt_add, toInt_widened, toInt_TIME_SCALE_MS, hsecs, hmins, hhours,
    Int.bmod_add_bmod, Int.bmod_mul_bmod]
  rw [Int.mul_comm]

theorem wraps_eq_zero {wraps : ℤ}
    (h : (1000 * 2 ^ 32 : ℤ) * (1000 * secs.toNat / 2 ^ 32 + 60000 * mins.toNat / 2 ^ 32 +
      3600000 * hours.toNat / 2 ^ 32 : ℕ) = 2 ^ 64 * wraps) :
    1000 * secs.toNat / 2 ^ 32 + 60000 * mins.toNat / 2 ^ 32 + 3600000 * hours.toNat / 2 ^ 32 = 0 := by
  have hlt : 1000 * secs.toNat / 2 ^ 32 + 60000 * mins.toNat / 2 ^ 32 + 3600000 * hours.toNat / 2 ^ 32 <
      2 ^ 29 := by
    have hsecs := secs.toNat_lt
    have hmins := mins.toNat_lt
    have hhours := hours.toNat_lt
    omega
  generalize 1000 * secs.toNat / 2 ^ 32 + 60000 * mins.toNat / 2 ^ 32 + 3600000 * hours.toNat / 2 ^ 32 =
    lost at h hlt
  have hdvd : (2 ^ 29 : ℤ) ∣ 125 * lost := ⟨wraps, by omega⟩
  have hlost : 2 ^ 29 ∣ lost := by
    exact_mod_cast Int.dvd_of_dvd_mul_right_of_gcd_one hdvd (by decide)
  exact Nat.eq_zero_of_dvd_of_lt hlost hlt

/-- When the sum is exact: no product wraps in 32 bits, and the sum fits into 64 bits. -/
theorem buildTime_exact_iff :
    (buildTime millis secs mins hours).toInt = 1000 * totalMillis millis secs mins hours ↔
      1000 * secs.toNat < 2 ^ 32 ∧ 60000 * mins.toNat < 2 ^ 32 ∧ 3600000 * hours.toNat < 2 ^ 32 ∧
        Representable (1000 * totalMillis millis secs mins hours) := by
  unfold totalMillis
  constructor
  · intro h
    have hrepresentable := representable_toInt (buildTime millis secs mins hours)
    rw [h] at hrepresentable
    -- both sums are congruent modulo 2^64, and differ by what the products lose
    obtain ⟨wraps, hwraps⟩ : (2 ^ 64 : ℤ) ∣ _ := Int.dvd_self_sub_bmod (x := 1000 * (millis.toInt +
      (1000 * secs.toNat % 2 ^ 32 : ℕ) + (60000 * mins.toNat % 2 ^ 32 : ℕ) +
      (3600000 * hours.toNat % 2 ^ 32 : ℕ)))
    rw [← toInt_buildTime] at hwraps
    have hsplit : ∀ product : ℕ, (product : ℤ) = 2 ^ 32 * (product / 2 ^ 32 : ℕ) + (product % 2 ^ 32 : ℕ) :=
      fun product => by exact_mod_cast (Nat.div_add_mod product (2 ^ 32)).symm
    have hsecs := hsplit (1000 * secs.toNat)
    have hmins := hsplit (60000 * mins.toNat)
    have hhours := hsplit (3600000 * hours.toNat)
    have hlost := @wraps_eq_zero secs mins hours (-wraps) (by push_cast at *; linarith)
    rw [Nat.add_eq_zero_iff, Nat.add_eq_zero_iff] at hlost
    obtain ⟨⟨hsecs, hmins⟩, hhours⟩ := hlost
    exact ⟨Nat.lt_of_div_eq_zero (by decide) hsecs, Nat.lt_of_div_eq_zero (by decide) hmins,
      Nat.lt_of_div_eq_zero (by decide) hhours, hrepresentable⟩
  · rintro ⟨hsecs, hmins, hhours, hrepresentable⟩
    rw [toInt_buildTime, Nat.mod_eq_of_lt hsecs, Nat.mod_eq_of_lt hmins, Nat.mod_eq_of_lt hhours]
    exact hrepresentable.bmod

/-! ## The decomposition -/

theorem toInt_div_pos {a b : Int64} (hpos : 0 < b.toInt) : (a / b).toInt = a.toInt.tdiv b.toInt := by
  rw [Int64.toInt_div, (representable_tdiv (representable_toInt a) hpos).bmod]

theorem tdiv_tmod_spec (x : ℤ) {d : ℤ} (hpos : 0 < d) : d * x.tdiv d + x.tmod d = x ∧ |x.tmod d| < d ∧
    (0 ≤ x → 0 ≤ x.tdiv d ∧ 0 ≤ x.tmod d) ∧ (x ≤ 0 → x.tdiv d ≤ 0 ∧ x.tmod d ≤ 0) := by
  have hneg : x ≤ 0 → x.tdiv d ≤ 0 ∧ x.tmod d ≤ 0 := by
    intro h
    have hquot := Int.tdiv_nonneg (show 0 ≤ -x by omega) hpos.le
    have hrem := Int.tmod_nonneg d (show 0 ≤ -x by omega)
    rw [Int.neg_tdiv] at hquot
    rw [Int.neg_tmod] at hrem
    exact ⟨by omega, by omega⟩
  refine ⟨Int.mul_tdiv_add_tmod x d, ?_, ?_, hneg⟩
  · rw [abs_lt]
    have hlt := Int.tmod_lt_of_pos (-x) hpos
    rw [Int.neg_tmod] at hlt
    exact ⟨by omega, Int.tmod_lt_of_pos x hpos⟩
  · intro h
    exact ⟨Int.tdiv_nonneg h hpos.le, Int.tmod_nonneg d h⟩

/-- The whole hours in a number of milliseconds. -/
def wholeHours (total : ℤ) : ℤ := ((total.tdiv 1000).tdiv 60).tdiv 60

theorem wholeHours_spec (total : ℤ) : TimeParts.Normalise
    ⟨total.tmod 1000, (total.tdiv 1000).tmod 60, ((total.tdiv 1000).tdiv 60).tmod 60, wholeHours total⟩
    total := by
  obtain ⟨hms, hmsLt, hmsNonneg, hmsNonpos⟩ := tdiv_tmod_spec total (show 0 < 1000 by decide)
  obtain ⟨hs, hsLt, hsNonneg, hsNonpos⟩ := tdiv_tmod_spec (total.tdiv 1000) (show 0 < 60 by decide)
  obtain ⟨hm, hmLt, hmNonneg, hmNonpos⟩ :=
    tdiv_tmod_spec ((total.tdiv 1000).tdiv 60) (show 0 < 60 by decide)
  refine ⟨?_, hmsLt, hsLt, hmLt, ?_, ?_⟩
  · unfold wholeHours
    dsimp only
    omega
  · intro h
    obtain ⟨hquot, hrem⟩ := hmsNonneg h
    obtain ⟨hquot', hrem'⟩ := hsNonneg hquot
    obtain ⟨hquot'', hrem''⟩ := hmNonneg hquot'
    exact ⟨hrem, hrem', hrem'', hquot''⟩
  · intro h
    obtain ⟨hquot, hrem⟩ := hmsNonpos h
    obtain ⟨hquot', hrem'⟩ := hsNonpos hquot
    obtain ⟨hquot'', hrem''⟩ := hmNonpos hquot'
    exact ⟨hrem, hrem', hrem'', hquot''⟩

theorem toInt_narrow {x : Int64} {n bound : ℤ} (hx : x.toInt = n) (hn : |n| < bound)
    (hbound : bound ≤ 2 ^ 31) : x.toInt32.toInt = n := by
  rw [abs_lt] at hn
  rw [Int64.toInt_toInt32, hx]
  exact Int.bmod_eq_of_le (by omega) (by omega)

/-- What is extracted: the components truncated towards zero; just the hours may not fit into 32 bits. -/
theorem extracted_eq {total : ℤ} (htime : time.toInt = 1000 * total) : TimeParts.extracted time =
    ⟨total.tmod 1000, (total.tdiv 1000).tmod 60, ((total.tdiv 1000).tdiv 60).tmod 60,
      (wholeHours total).bmod (2 ^ 32)⟩ := by
  have hthousand : (1000 : Int64).toInt = 1000 := by decide
  have hsixty : (60 : Int64).toInt = 60 := by decide
  have hmillis : (time / TIME_SCALE_MS).toInt = total := by
    rw [toInt_div_pos (by decide), htime]
    exact Int.mul_tdiv_cancel_left total (by decide)
  have hsecs : (time / TIME_SCALE_MS / 1000).toInt = total.tdiv 1000 := by
    rw [toInt_div_pos (by decide), hmillis, hthousand]
  have hmins : (time / TIME_SCALE_MS / 1000 / 60).toInt = (total.tdiv 1000).tdiv 60 := by
    rw [toInt_div_pos (by decide), hsecs, hsixty]
  have hhours : (time / TIME_SCALE_MS / 1000 / 60 / 60).toInt = wholeHours total := by
    rw [toInt_div_pos (by decide), hmins, hsixty, wholeHours]
  have hnormal := wholeHours_spec total
  unfold TimeParts.extracted timeMillis timeSeconds timeMinutes timeHours
  congr 1
  · refine toInt_narrow ?_ hnormal.millis_lt (by decide)
    rw [Int64.toInt_mod, hmillis, hthousand]
  · refine toInt_narrow ?_ hnormal.secs_lt (by decide)
    rw [Int64.toInt_mod, hsecs, hsixty]
  · refine toInt_narrow ?_ hnormal.mins_lt (by decide)
    rw [Int64.toInt_mod, hmins, hsixty]
  · rw [Int64.toInt_toInt32, hhours]

/-- The hours fit into an `int`. -/
def HoursFit (total : ℤ) : Prop := -(2 ^ 31 + 1) * 3600000 < total ∧ total < 2 ^ 31 * 3600000

instance (total : ℤ) : Decidable (HoursFit total) := inferInstanceAs (Decidable (_ ∧ _))

theorem hoursFit_iff (total : ℤ) : HoursFit total ↔ (wholeHours total).bmod (2 ^ 32) = wholeHours total := by
  obtain ⟨hsum, hmillis, hsecs, hmins, hnonneg, hnonpos⟩ := wholeHours_spec total
  dsimp only at *
  rw [abs_lt] at hmillis hsecs hmins
  unfold HoursFit
  generalize wholeHours total = hours at *
  constructor
  · intro h
    exact Int.bmod_eq_of_le (by omega) (by omega)
  · intro h
    have hlow := Int.le_bmod (x := hours) (m := 2 ^ 32) (by decide)
    have hhigh := Int.bmod_lt (x := hours) (m := 2 ^ 32) (by decide)
    constructor <;> omega

/-- When the decomposition is right for a sum which is exact. -/
theorem normalise_extracted_iff {total : ℤ} (htime : time.toInt = 1000 * total) :
    (TimeParts.extracted time).Normalise total ↔ HoursFit total := by
  have hexact := wholeHours_spec total
  rw [extracted_eq htime, hoursFit_iff]
  constructor
  · intro h
    have hsum := h.sum_eq
    have hsum' := hexact.sum_eq
    dsimp only at hsum hsum'
    omega
  · intro h
    rw [h]
    exact hexact

/-- **Building a time is exact, and can be reversed, if and only if** no product of a component and its
number of milliseconds wraps in 32 bits, and the whole hours of the sum fit into an `int`. -/
theorem builtExactly_iff (millis : Int64) (secs mins hours : UInt32) : BuiltExactly millis secs mins hours ↔
    1000 * secs.toNat < 2 ^ 32 ∧ 60000 * mins.toNat < 2 ^ 32 ∧ 3600000 * hours.toNat < 2 ^ 32 ∧
    HoursFit (totalMillis millis secs mins hours) := by
  constructor
  · rintro ⟨hexact, hdecomposed⟩
    obtain ⟨hsecs, hmins, hhours, -⟩ := buildTime_exact_iff.mp hexact
    exact ⟨hsecs, hmins, hhours, (normalise_extracted_iff hexact).mp hdecomposed⟩
  · rintro ⟨hsecs, hmins, hhours, hfit⟩
    have hrepresentable : Representable (1000 * totalMillis millis secs mins hours) := by
      obtain ⟨hlow, hhigh⟩ := hfit
      exact ⟨by omega, by omega⟩
    have hexact := buildTime_exact_iff.mpr ⟨hsecs, hmins, hhours, hrepresentable⟩
    exact ⟨hexact, (normalise_extracted_iff hexact).mpr hfit⟩

/-- 1194 hours are more than fit: the time is as good as lost. -/
theorem not_builtExactly_hours : buildTime 0 0 0 1194 = 3432704000 ∧
    totalMillis 0 0 0 1194 = 4298400000 ∧ ¬ BuiltExactly 0 0 0 1194 := by
  refine ⟨by decide, by decide, ?_⟩
  rw [builtExactly_iff]
  decide

end Lumiera.Lib.RawTime
