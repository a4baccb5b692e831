import Lumiera.Lib.Time.FrameQuantisation

/-! # NTSC drop-frame conversions (`lib/time/time.cpp`)

The timecode counts 30 frames per second, while NTSC has somewhat less. Thus two labels are left out
at the start of each minute, with exception of every tenth one. Decoding adds the labels dropped so
far to the frame number; encoding subtracts them again. -/

namespace Lumiera.Lib.RawTime

def FRAMES_PER_10min : UInt32 := 10 * 60 * 30000 / 1001

def FRAMES_PER_1min : UInt32 := 1 * 60 * 30000 / 1001

def DISCREPANCY : UInt32 := 1 * 60 * 30 - FRAMES_PER_1min

/-- `FrameRate::NTSC` -/
def NTSC : FrameRate := ⟨30000, 1001, by decide, by decide, by decide⟩

/-- The frame number in drop-frame encoding. -/
def dropFrameNumber (frameNr : Int64) : Int64 :=
  -- partition into 10 minute segments
  let quot := frameNr / widened FRAMES_PER_10min
  let rem := frameNr % widened FRAMES_PER_10min
  let remainingMinutes := (rem - widened DISCREPANCY) / widened FRAMES_PER_1min
  let dropIncidents := (10 - 1) * quot + remainingMinutes
  frameNr + 2 * dropIncidents

/-- `calculate_drop_frame_number` -/
def calculateDropFrameNumber (time : gavl_time_t) : Option Int64 :=
  (calculateQuantisationFps time 0 30000 1001).map dropFrameNumber

/-- `lumiera_time_ntsc_drop_frames` -/
def timeNtscDropFrames (time : gavl_time_t) : Option Int32 :=
  (calculateDropFrameNumber time).map fun nr => (nr % 30).toInt32

/-- `lumiera_time_ntsc_drop_seconds` -/
def timeNtscDropSeconds (time : gavl_time_t) : Option Int32 :=
  (calculateDropFrameNumber time).map fun nr => (nr / 30 % 60).toInt32

/-- `lumiera_time_ntsc_drop_minutes` -/
def timeNtscDropMinutes (time : gavl_time_t) : Option Int32 :=
  (calculateDropFrameNumber time).map fun nr => (nr / 30 / 60 % 60).toInt32

/-- `lumiera_time_ntsc_drop_hours` -/
def timeNtscDropHours (time : gavl_time_t) : Option Int32 :=
  (calculateDropFrameNumber time).map fun nr => (nr / 30 / 60 / 60 % 24).toInt32

/-- `lumiera_build_time_ntsc_drop` -/
def buildTimeNtscDrop (frames secs mins hours : UInt32) : gavl_time_t :=
  let totalMins := (60 * hours + mins).toUInt64
  let totalFrames := (30 * 60 * 60 * hours + 30 * 60 * mins + 30 * secs + frames).toUInt64
    - 2 * (totalMins - totalMins / 10)
  let result := framecountToTime totalFrames NTSC
  -- compensate for truncating down on conversion
  if 0 ≠ result then result + 1 else result

/-! ## Drop-frame codes -/

/-- The components of a timecode. -/
@[ext]
structure DropCode where
  hours : UInt32
  mins : UInt32
  secs : UInt32
  frames : UInt32
  deriving DecidableEq, Repr

namespace DropCode

/-- The components which the decoding functions deliver for a time. -/
def decoded (time : gavl_time_t) : Option DropCode := do
  let hours ← timeNtscDropHours time
  let mins ← timeNtscDropMinutes time
  let secs ← timeNtscDropSeconds time
  let frames ← timeNtscDropFrames time
  some ⟨hours.toUInt32, mins.toUInt32, secs.toUInt32, frames.toUInt32⟩

/-- The time for these components. -/
def built (code : DropCode) : gavl_time_t := buildTimeNtscDrop code.frames code.secs code.mins code.hours

/-- **Valid codes**: frames 0 and 1 are absent in minutes which can not be divided by ten. -/
def Valid (code : DropCode) : Prop :=
  code.hours < 24 ∧ code.mins < 60 ∧ code.secs < 60 ∧ code.frames < 30 ∧
    (code.secs = 0 → code.frames < 2 → code.mins % 10 = 0)

/-- The order of timecodes. -/
def Before (code code' : DropCode) : Prop :=
  code.hours < code'.hours ∨ code.hours = code'.hours ∧
    (code.mins < code'.mins ∨ code.mins = code'.mins ∧
      (code.secs < code'.secs ∨ code.secs = code'.secs ∧ code.frames < code'.frames))

end DropCode

/-- The number of frames in 24 hours. -/
def FRAMES_PER_DAY : ℕ := 24 * 6 * 17982

/-! ## The counting scheme -/

/-- The labels dropped before a frame, divided by two. -/
def dropIncidents (n : ℕ) : ℕ := 9 * (n / 17982) + (n % 17982 - 2) / 1798

/-- The label of a frame, as number of frames at 30 frames per second. -/
def labelNr (n : ℕ) : ℕ := n + 2 * dropIncidents n

/-- The number of the frame with this label. -/
def frameOfLabel (label : ℕ) : ℕ := label - 2 * (label / 1800 - label / 1800 / 10)

/-- Labels which are used: the first two ones are dropped in each minute, but not in the first one of ten. -/
def LabelUsed (label : ℕ) : Prop := label / 1800 % 10 ≠ 0 → 2 ≤ label % 1800

theorem labelNr_div (n : ℕ) : labelNr n / 1800 = 10 * (n / 17982) + (n % 17982 - 2) / 1798 := by
  unfold labelNr dropIncidents
  omega

/-- The dropped labels can be told from the label, and taken away again. -/
theorem frameOfLabel_labelNr (n : ℕ) : frameOfLabel (labelNr n) = n := by
  rw [frameOfLabel, labelNr_div]
  unfold labelNr dropIncidents
  omega

theorem labelUsed_labelNr (n : ℕ) : LabelUsed (labelNr n) := by
  intro hdropped
  unfold labelNr dropIncidents at *
  omega

/-- Each label in use belongs to a frame. -/
theorem labelNr_frameOfLabel {label : ℕ} (hused : LabelUsed label) : labelNr (frameOfLabel label) = label := by
  obtain ⟨minute, hminute⟩ : ∃ minute, minute = label / 1800 := ⟨_, rfl⟩
  obtain ⟨k, hk⟩ : ∃ k, k = minute % 10 := ⟨_, rfl⟩
  obtain ⟨q, hq⟩ : ∃ q, q = minute / 10 := ⟨_, rfl⟩
  obtain ⟨x, hx⟩ : ∃ x, x = label % 1800 := ⟨_, rfl⟩
  have hused' : k ≠ 0 → 2 ≤ x := by
    intro hne
    rw [hx]
    exact hused (by omega)
  -- within the segment of ten minutes
  have hframe : frameOfLabel label = 17982 * q + (1798 * k + x) := by
    rw [frameOfLabel]
    omega
  have hquot : (17982 * q + (1798 * k + x)) / 17982 = q := by omega
  rw [hframe, labelNr, dropIncidents, hquot]
  omega

theorem dropIncidents_mono {n m : ℕ} (h : n ≤ m) : dropIncidents n ≤ dropIncidents m := by
  have hquot : n / 17982 ≤ m / 17982 := Nat.div_le_div_right h
  unfold dropIncidents
  rcases eq_or_lt_of_le hquot with heq | hlt
  · omega
  · omega

theorem labelNr_lt_labelNr {n m : ℕ} (h : n < m) : labelNr n < labelNr m := by
  have hmono := dropIncidents_mono h.le
  unfold labelNr
  omega

theorem labelNr_lt {n : ℕ} (h : n < FRAMES_PER_DAY) : labelNr n < 2592000 := by
  have hlast := labelNr_lt_labelNr h
  have hday : labelNr FRAMES_PER_DAY = 2592000 := by decide
  rwa [hday] at hlast

/-! ## What is computed -/

section Computed

variable {x frameNr : Int64} {n label d : ℕ} {time : gavl_time_t}

theorem toInt_div_nat {y : Int64} (hx : x.toInt = n) (hy : y.toInt = d) (hpos : 0 < d) :
    (x / y).toInt = (n / d : ℕ) := by
  have hrepresentable := representable_toInt x
  rw [hx] at hrepresentable
  rw [Int64.toInt_div, hx, hy, (representable_tdiv hrepresentable (by exact_mod_cast hpos)).bmod,
    Int.tdiv_eq_ediv_of_nonneg (Int.natCast_nonneg n)]
  exact (Int.natCast_ediv n d).symm

theorem toInt_mod_nat {y : Int64} (hx : x.toInt = n) (hy : y.toInt = d) : (x % y).toInt = (n % d : ℕ) := by
  rw [Int64.toInt_mod, hx, hy]
  exact (Int.natCast_emod n d).symm

theorem toNat_component (hx : x.toInt = n) (hlt : n < 2 ^ 31) : x.toInt32.toUInt32.toNat = n := by
  have hnarrow : x.toInt32.toInt = n := by
    rw [Int64.toInt_toInt32, hx]
    exact Int.bmod_eq_of_le (by omega) (by omega)
  have hword : x.toInt32.toInt = (x.toInt32.toUInt32.toNat : ℤ).bmod (2 ^ 32) := by
    calc x.toInt32.toInt
        = (UInt32.ofNat x.toInt32.toUInt32.toNat).toInt32.toInt := by rw [UInt32.ofNat_toNat]; rfl
      _ = (Int32.ofNat x.toInt32.toUInt32.toNat).toInt := by rw [UInt32.toInt32_ofNat']
      _ = (x.toInt32.toUInt32.toNat : ℤ).bmod Int32.size := Int32.toInt_ofNat'
      _ = (x.toInt32.toUInt32.toNat : ℤ).bmod (2 ^ 32) := by norm_num [Int32.size]
  have hltWord := x.toInt32.toUInt32.toNat_lt
  rw [Int.bmod_def] at hword
  split_ifs at hword <;> omega

/-- The drop-frame number is the label. -/
theorem toInt_dropFrameNumber (hn : frameNr.toInt = n) (hlt : n < FRAMES_PER_DAY) :
    (dropFrameNumber frameNr).toInt = labelNr n := by
  have hday : FRAMES_PER_DAY = 2589408 := rfl
  have hquot := toInt_div_nat hn (toInt_widened FRAMES_PER_10min) (by decide)
  have hrem := toInt_mod_nat hn (toInt_widened FRAMES_PER_10min)
  have htenMin : FRAMES_PER_10min.toNat = 17982 := by decide
  rw [htenMin] at hquot hrem
  have hminutes : ((frameNr % widened FRAMES_PER_10min - widened DISCREPANCY) / widened
      FRAMES_PER_1min).toInt =
      ((n % 17982 - 2) / 1798 : ℕ) := by
    have hone : (widened FRAMES_PER_1min).toInt = 1798 := by decide
    have htwo : (widened DISCREPANCY).toInt = 2 := by decide
    have hsub : (frameNr % widened FRAMES_PER_10min - widened DISCREPANCY).toInt = (n % 17982 : ℕ) - 2 := by
      rw [Int64.toInt_sub, hrem]
      exact Representable.bmod ⟨by omega, by omega⟩
    rw [Int64.toInt_div, hsub, hone,
      (representable_tdiv (show Representable _ from ⟨by omega, by omega⟩) (by decide)).bmod]
    rcases Nat.lt_or_ge (n % 17982) 2 with hsmall | hlarge
    · -- the first two frames of ten minutes: truncated towards zero
      have hzero : (((n % 17982 : ℕ) : ℤ) - 2).tdiv 1798 = 0 := by
        rcases Nat.lt_or_ge (n % 17982) 1 with h | h
        · rw [show n % 17982 = 0 by omega]
          decide
        · rw [show n % 17982 = 1 by omega]
          decide
      omega
    · rw [Int.tdiv_eq_ediv_of_nonneg (by omega)]
      omega
  have hnine : ((10 - 1 : Int64) * (frameNr / widened FRAMES_PER_10min)).toInt = 9 * (n / 17982 : ℕ) := by
    have hconst : (10 - 1 : Int64).toInt = 9 := by decide
    rw [Int64.toInt_mul, hquot, hconst]
    exact Representable.bmod ⟨by omega, by omega⟩
  have hincidents : ((10 - 1 : Int64) * (frameNr / widened FRAMES_PER_10min) +
      (frameNr % widened FRAMES_PER_10min - widened DISCREPANCY) / widened FRAMES_PER_1min).toInt =
        (dropIncidents n : ℕ) := by
    rw [Int64.toInt_add, hnine, hminutes]
    exact Representable.bmod ⟨by omega, by omega⟩
  have hincidentsLt : dropIncidents n < 2000 := by
    rw [dropIncidents]
    omega
  have htwice : (2 * ((10 - 1 : Int64) * (frameNr / widened FRAMES_PER_10min) +
      (frameNr % widened FRAMES_PER_10min - widened DISCREPANCY) / widened FRAMES_PER_1min)).toInt =
        2 * (dropIncidents n : ℕ) := by
    have htwo : (2 : Int64).toInt = 2 := by decide
    rw [Int64.toInt_mul, hincidents, htwo]
    exact Representable.bmod ⟨by omega, by omega⟩
  unfold dropFrameNumber
  rw [Int64.toInt_add, htwice, hn]
  exact Representable.bmod ⟨by omega, by omega⟩

/-- The time of a frame, truncated to whole ticks. -/
theorem toInt_framecountToTime_ntsc {count : UInt64} (hcount : count.toNat = n) (hlt : n < FRAMES_PER_DAY) :
    (framecountToTime count NTSC).toInt = (100100 * n / 3 : ℕ) := by
  have hday : FRAMES_PER_DAY = 2589408 := rfl
  have hsigned : count.toInt64.toInt = n := by
    rw [toInt_toInt64_of_lt (by omega), hcount]
  have habs : (abs count.toInt64).toUInt64 = count := by
    unfold abs
    rw [if_neg (by rw [Int64.lt_iff_toInt_lt, hsigned, Int64.toInt_zero]; omega)]
    rfl
  have hticks : wrappedTicks count.toInt64 = 1000000 * n := by
    rw [wrappedTicks]
    omega
  have hgcd := gcd_pos count.toInt64 NTSC
  have hnum : NTSC.numerator.toNat = 30000 := by decide
  have hden : NTSC.denominator.toNat = 1001 := by decide
  -- common divisors do not change the quotient
  have hquotient : frameNumerator count.toInt64 NTSC / frameDenominator count.toInt64 NTSC =
      100100 * n / 3 := by
    have hdvd := Nat.gcd_dvd_left (wrappedTicks count.toInt64) NTSC.numerator.toNat
    have hdvd' := Nat.gcd_dvd_right (wrappedTicks count.toInt64) NTSC.numerator.toNat
    unfold frameNumerator frameDenominator
    rw [← Nat.mul_div_mul_left _ _ hgcd, ← Nat.mul_assoc, Nat.mul_div_cancel' hdvd,
      Nat.mul_div_cancel' hdvd', hticks,
      hnum, hden]
    omega
  have hnumerator : frameNumerator count.toInt64 NTSC < 2 ^ 63 := by
    have hle := Nat.div_le_self (wrappedTicks count.toInt64)
      (Nat.gcd (wrappedTicks count.toInt64) NTSC.numerator.toNat)
    rw [frameNumerator, hden]
    omega
  have htime := toInt_framecountToTime count.toInt64 NTSC
  rw [habs, Representable.bmod ⟨by omega, by omega⟩, Int.tdiv_eq_ediv_of_nonneg (by omega)] at htime
  rw [htime, ← hquotient, Int.natCast_ediv]

/-- The compensation for truncating hits the frame, and not one before. -/
theorem quantised_compensated (htime : time.toInt = (if n = 0 then 0 else 100100 * n / 3 + 1 : ℕ))
    (hlt : n < FRAMES_PER_DAY) : calculateQuantisationFps time 0 30000 1001 = some (Int64.ofNat n) := by
  have hday : FRAMES_PER_DAY = 2589408 := rfl
  have hbound : 0 ≤ time.toInt ∧ time.toInt < 90000000000 := by
    rw [htime]
    split_ifs <;> omega
  have hrange : InTimeRange time := (inTimeRange_iff time).mpr ⟨by omega, by omega⟩
  have hsafe : safeToMultiply time 30000 1001 = true := by
    have hnum : ((30000 : UInt32).toNat : ℤ) = 30000 := rfl
    rw [safeToMultiply_iff hrange (by decide) (by decide), abs_of_nonneg hbound.1, hnum]
    omega
  obtain ⟨q, hq, hquot⟩ := quantised_direct hrange (show InTimeRange (0 : gavl_time_t) by decide) (by decide)
    hsafe
  have hnum : ((30000 : UInt32).toNat : ℤ) = 30000 := rfl
  have hden : ((1001 : UInt32).toNat : ℤ) = 1001 := rfl
  rw [hnum, hden, Int64.toInt_zero, Representable.bmod ⟨by omega, by omega⟩, htime] at hquot
  have hvalue : q.toInt = n := by
    rw [hquot]
    split_ifs with hzero
    · rw [hzero]
      rfl
    · omega
  rw [hq, ← Int64.toInt_inj.mp (hvalue.trans (Int64.toInt_ofNat_of_lt (by omega)).symm)]

end Computed

/-! ## Encoding and decoding -/

/-- **The time belongs to this frame** of the day. -/
def AtFrame (time : gavl_time_t) (frameNr : Int64) : Prop :=
  calculateQuantisationFps time 0 30000 1001 = some frameNr ∧ 0 ≤ frameNr.toInt ∧
    frameNr.toInt < FRAMES_PER_DAY

namespace DropCode

/-- The components as a label. -/
def label (code : DropCode) : ℕ :=
  108000 * code.hours.toNat + 1800 * code.mins.toNat + 30 * code.secs.toNat + code.frames.toNat

/-- The components are in the range of a day. -/
structure InDay (code : DropCode) : Prop where
  hours : code.hours.toNat < 24
  mins : code.mins.toNat < 60
  secs : code.secs.toNat < 60
  frames : code.frames.toNat < 30

variable {code code' : DropCode} {time : gavl_time_t} {frameNr : Int64}

theorem InDay.label_lt (h : code.InDay) : code.label < 2592000 := by
  obtain ⟨hhours, hmins, hsecs, hframes⟩ := h
  unfold label
  omega

theorem InDay.eq_of_label (h : code.InDay) (h' : code'.InDay) (heq : code.label = code'.label) : code = code' := by
  obtain ⟨hhours, hmins, hsecs, hframes⟩ := h
  obtain ⟨hhours', hmins', hsecs', hframes'⟩ := h'
  unfold label at heq
  ext <;> omega

theorem before_of_label (h' : code'.InDay) (hlt : code.label < code'.label) : code.Before code' := by
  obtain ⟨hhours', hmins', hsecs', hframes'⟩ := h'
  unfold label at hlt
  simp only [Before, UInt32.lt_iff_toNat_lt, ← UInt32.toNat_inj]
  omega

theorem valid_iff : code.Valid ↔ code.InDay ∧ LabelUsed code.label := by
  have hvalid : code.Valid ↔ code.hours.toNat < 24 ∧ code.mins.toNat < 60 ∧ code.secs.toNat < 60 ∧
      code.frames.toNat < 30 ∧ (code.secs.toNat = 0 → code.frames.toNat < 2 → code.mins.toNat % 10 = 0) := by
    simp only [Valid, ← UInt32.toNat_inj]
    rfl
  rw [hvalid]
  constructor
  · rintro ⟨hhours, hmins, hsecs, hframes, hused⟩
    refine ⟨⟨hhours, hmins, hsecs, hframes⟩, fun hdropped => ?_⟩
    have hsplit : code.label = 1800 * (60 * code.hours.toNat + code.mins.toNat) +
        (30 * code.secs.toNat + code.frames.toNat) := by
      unfold label
      ring
    by_contra hfirst
    omega
  · rintro ⟨⟨hhours, hmins, hsecs, hframes⟩, hused⟩
    refine ⟨hhours, hmins, hsecs, hframes, fun hsec hframe => ?_⟩
    by_contra hdropped
    unfold LabelUsed label at hused
    omega

/-- The components of the decoded code make up the label of the frame. -/
theorem exists_decoded (h : AtFrame time frameNr) :
    ∃ code : DropCode, decoded time = some code ∧ code.InDay ∧ code.label = labelNr frameNr.toInt.toNat := by
  obtain ⟨hquantised, hlow, hhigh⟩ := h
  have hframe : frameNr.toInt = (frameNr.toInt.toNat : ℕ) := by omega
  have hnumber := toInt_dropFrameNumber hframe (by omega)
  have hlabel := labelNr_lt (n := frameNr.toInt.toNat) (by omega)
  have hdrop : calculateDropFrameNumber time = some (dropFrameNumber frameNr) := by
    rw [calculateDropFrameNumber, hquantised, Option.map_some]
  have h30 : (30 : Int64).toInt = (30 : ℕ) := rfl
  have h60 : (60 : Int64).toInt = (60 : ℕ) := rfl
  have h24 : (24 : Int64).toInt = (24 : ℕ) := rfl
  -- each component is a quotient, wrapped into its range
  have hsecs := toInt_div_nat hnumber h30 (by decide)
  have hmins := toInt_div_nat hsecs h60 (by decide)
  have hhours := toInt_div_nat hmins h60 (by decide)
  have hframes := toNat_component (toInt_mod_nat hnumber h30) (by omega)
  have hsecs' := toNat_component (toInt_mod_nat hsecs h60) (by omega)
  have hmins' := toNat_component (toInt_mod_nat hmins h60) (by omega)
  have hhours' := toNat_component (toInt_mod_nat hhours h24) (by omega)
  refine ⟨_, by rw [decoded, timeNtscDropHours, timeNtscDropMinutes, timeNtscDropSeconds,
    timeNtscDropFrames, hdrop]; rfl,
    ?_, ?_⟩
  · constructor
    · exact hhours' ▸ Nat.mod_lt _ (by decide)
    · exact hmins' ▸ Nat.mod_lt _ (by decide)
    · exact hsecs' ▸ Nat.mod_lt _ (by decide)
    · exact hframes ▸ Nat.mod_lt _ (by decide)
  · unfold label
    rw [hhours', hmins', hsecs', hframes]
    omega

/-- The time built for a code belongs to the frame with this label. -/
theorem InDay.atFrame_built (h : code.InDay) : AtFrame code.built (Int64.ofNat (frameOfLabel code.label)) := by
  have hlabel := h.label_lt
  have hday : FRAMES_PER_DAY = 2589408 := rfl
  obtain ⟨hhours, hmins, hsecs, hframes⟩ := h
  have hlt : frameOfLabel code.label < FRAMES_PER_DAY := by
    unfold frameOfLabel
    omega
  have hmin : (60 * code.hours + code.mins).toUInt64.toNat = 60 * code.hours.toNat + code.mins.toNat := by
    have hsixty : (60 : UInt32).toNat = 60 := rfl
    rw [UInt32.toNat_toUInt64, UInt32.toNat_add, UInt32.toNat_mul, hsixty]
    omega
  have hsum : (30 * 60 * 60 * code.hours + 30 * 60 * code.mins + 30 * code.secs +
      code.frames).toUInt64.toNat =
      code.label := by
    have hhour : (30 * 60 * 60 * code.hours).toNat = 108000 * code.hours.toNat % 2 ^ 32 :=
        UInt32.toNat_mul _ _
    have hminute : (30 * 60 * code.mins).toNat = 1800 * code.mins.toNat % 2 ^ 32 := UInt32.toNat_mul _ _
    have hsecond : (30 * code.secs).toNat = 30 * code.secs.toNat % 2 ^ 32 := UInt32.toNat_mul _ _
    rw [UInt32.toNat_toUInt64, UInt32.toNat_add, UInt32.toNat_add, UInt32.toNat_add]
    unfold label
    omega
  have hdropped : (2 * ((60 * code.hours + code.mins).toUInt64 -
      (60 * code.hours + code.mins).toUInt64 / 10)).toNat =
      2 * (code.label / 1800 - code.label / 1800 / 10) := by
    have htwo : (2 : UInt64).toNat = 2 := rfl
    have hten : (10 : UInt64).toNat = 10 := rfl
    have hminutes : code.label / 1800 = 60 * code.hours.toNat + code.mins.toNat := by
      unfold label
      omega
    rw [UInt64.toNat_mul, UInt64.toNat_sub, UInt64.toNat_div, htwo, hten]
    omega
  have hcount : ((30 * 60 * 60 * code.hours + 30 * 60 * code.mins + 30 * code.secs + code.frames).toUInt64 -
      2 * ((60 * code.hours + code.mins).toUInt64 - (60 * code.hours + code.mins).toUInt64 / 10)).toNat =
        frameOfLabel code.label := by
    rw [UInt64.toNat_sub]
    unfold frameOfLabel
    omega
  have htime := toInt_framecountToTime_ntsc hcount hlt
  refine ⟨quantised_compensated ?_ hlt, ?_, ?_⟩
  · unfold built buildTimeNtscDrop
    dsimp only
    generalize frameOfLabel code.label = n at *
    generalize framecountToTime _ NTSC = result at *
    have hzero : 0 = result ↔ n = 0 := by
      rw [← Int64.toInt_inj, Int64.toInt_zero]
      omega
    by_cases hn : n = 0
    · rw [if_pos hn, ← hzero.mpr hn]
      rfl
    · have hone : (1 : Int64).toInt = 1 := rfl
      rw [if_pos (mt hzero.mp hn), if_neg hn, Int64.toInt_add, htime]
      exact Representable.bmod ⟨by omega, by omega⟩
  · rw [Int64.toInt_ofNat_of_lt (by omega)]
    omega
  · rw [Int64.toInt_ofNat_of_lt (by omega)]
    exact_mod_cast hlt

theorem Valid.decoded_built (h : code.Valid) : decoded code.built = some code := by
  obtain ⟨hday, hused⟩ := valid_iff.mp h
  have hframe := hday.atFrame_built
  obtain ⟨decoded, hdecoded, hday', hlabel⟩ := exists_decoded hframe
  have hnumber : (Int64.ofNat (frameOfLabel code.label)).toInt.toNat = frameOfLabel code.label := by
    have hlt := hday.label_lt
    rw [Int64.toInt_ofNat_of_lt (by unfold frameOfLabel; omega), Int.toNat_natCast]
  rw [hnumber, labelNr_frameOfLabel hused] at hlabel
  rw [hdecoded, hday'.eq_of_label hday hlabel]

theorem atFrame_built_decoded (h : AtFrame time frameNr) :
    ∃ code : DropCode, decoded time = some code ∧ code.Valid ∧ AtFrame code.built frameNr := by
  obtain ⟨code, hdecoded, hday, hlabel⟩ := exists_decoded h
  have hused : LabelUsed code.label := hlabel ▸ labelUsed_labelNr _
  have hframe := hday.atFrame_built
  have hnumber : Int64.ofNat frameNr.toInt.toNat = frameNr := by
    obtain ⟨-, hlow, -⟩ := h
    rw [← Int64.ofInt_eq_ofNat, Int.toNat_of_nonneg hlow, Int64.ofInt_toInt]
  rw [hlabel, frameOfLabel_labelNr, hnumber] at hframe
  exact ⟨code, hdecoded, valid_iff.mpr ⟨hday, hused⟩, hframe⟩

end DropCode

open DropCode in
/-- **Drop-frame codes are a bijective encoding of the frames of a day**, in ascending order: what
is decoded for any time which belongs to the frame leads back to this frame, every valid code is
decoded from the time built for it, and codes of later frames are greater. -/
theorem ntscDrop_codec (frameNr : Int64) (code : DropCode) :
    (0 ≤ frameNr.toInt → frameNr.toInt < FRAMES_PER_DAY → ∃ time, AtFrame time frameNr) ∧
    (∀ time, AtFrame time frameNr → ∃ code : DropCode, decoded time = some code ∧ code.Valid ∧
      AtFrame code.built frameNr) ∧
    (code.Valid → decoded code.built = some code) ∧
    (∀ time time' frameNr', AtFrame time frameNr → AtFrame time' frameNr' → frameNr < frameNr' →
      ∃ code code', decoded time = some code ∧ decoded time' = some code' ∧ code.Before code') := by
  refine ⟨fun hlow hhigh => ?_, fun time h => atFrame_built_decoded h, fun h => h.decoded_built, ?_⟩
  · obtain ⟨n, hn⟩ := Int.eq_ofNat_of_zero_le hlow
    have hday : FRAMES_PER_DAY = 2589408 := rfl
    have hlt : n < FRAMES_PER_DAY := by omega
    have hfits : (if n = 0 then 0 else 100100 * n / 3 + 1) < 2 ^ 63 := by
      split_ifs <;> omega
    refine ⟨Int64.ofNat (if n = 0 then 0 else 100100 * n / 3 + 1), ?_, hlow, hhigh⟩
    have hnumber : Int64.ofNat n = frameNr :=
      Int64.toInt_inj.mp ((Int64.toInt_ofNat_of_lt (by omega)).trans hn.symm)
    rw [quantised_compensated (Int64.toInt_ofNat_of_lt hfits) hlt, hnumber]
  · intro time time' frameNr' h h' hlt
    obtain ⟨code, hdecoded, hday, hlabel⟩ := exists_decoded h
    obtain ⟨code', hdecoded', hday', hlabel'⟩ := exists_decoded h'
    refine ⟨code, code', hdecoded, hdecoded', before_of_label hday' ?_⟩
    have hlt' := Int64.lt_iff_toInt_lt.mp hlt
    obtain ⟨-, hlow, -⟩ := h
    rw [hlabel, hlabel']
    exact labelNr_lt_labelNr (by omega)

/-- At the end of the first minute: there is no label `00:01:00:00`. -/
example : labelNr 1799 = 1799 ∧ labelNr 1800 = 1802 ∧ labelNr 17982 = 18000 := by decide

end Lumiera.Lib.RawTime
