import Mathlib.Algebra.BigOperators.Intervals
import Mathlib.Algebra.Order.BigOperators.Group.Finset
import Mathlib.Tactic.IntervalCases

/-!
# The calendar of `lib/math.cppm`

`timestamp` and `date_from` count years from March, so that a leap day comes last, in eras of 400
years. Here they are compared with the Gregorian calendar itself: `dayNumber` adds up the lengths of
the years and months before a day, and `timestamp` is that number in seconds. That `date_from` gives
the day back rests on one fact about an era: the corrected number of days that it divides by 365
grows with the day, and is on the right side of a multiple of 365 on the first and on the last day
of each year (`corrected_ends`).
-/

namespace Ilobilix.Lib

/-! ## The conversions -/

/-- The lambda `days_from_civil`, with 64-bit words and a signed result. -/
def daysFromCivil (years : ℤ) (months days : ℕ) : ℤ :=
  let years := if months ≤ 2 then years - 1 else years
  let era := (if 0 ≤ years then years else years - 399).tdiv 400
  let yoe := (years - era * 400).toNat
  let doy : ℕ :=
    ((153 * (if 2 < months then months - 3 else months + 9) + 2) / 5 + days + (2 ^ 64 - 1)) % 2 ^ 64
  let doe : ℕ := (yoe * 365 + yoe / 4 - yoe / 100 + doy) % 2 ^ 64
  era * 146097 + (doe : ℤ).bmod (2 ^ 64) - 719468

def timestamp (years months days hours minutes seconds : ℕ) : ℕ :=
  let value := (daysFromCivil years months days % 2 ^ 64).toNat
  (value * 86400 + hours * 3600 + minutes * 60 + seconds) % 2 ^ 64

/-- The number of the day is unsigned, so its era is never rounded down. -/
def dateFrom (unix : ℕ) : ℕ × ℕ × ℕ :=
  let unix := unix / 86400 + 719468
  let era := unix / 146097
  let doe := unix - era * 146097
  let yoe := (doe - doe / 1460 + doe / 36524 - doe / 146096) / 365
  let year := (yoe + era * 400) % 2 ^ 16
  let doy := doe - (365 * yoe + yoe / 4 - yoe / 100)
  let mp := (5 * doy + 2) / 153
  let day := (doy - (153 * mp + 2) / 5 + 1) % 2 ^ 8
  let month := (if mp < 10 then mp + 3 else mp - 9) % 2 ^ 8
  ((year + if month ≤ 2 then 1 else 0) % 2 ^ 16, month, day)

def timeFrom (unix : ℕ) : ℕ × ℕ × ℕ :=
  let unix := unix % 86400
  (unix / 3600, unix / 60 % 60, unix % 60)

/-! ## The Gregorian calendar -/

def IsLeap (y : ℕ) : Prop := y % 4 = 0 ∧ (y % 100 ≠ 0 ∨ y % 400 = 0)

instance (y : ℕ) : Decidable (IsLeap y) := inferInstanceAs (Decidable (_ ∧ _))

def daysInYear (y : ℕ) : ℕ := if IsLeap y then 366 else 365

def daysInMonth (y m : ℕ) : ℕ :=
  if m = 2 then if IsLeap y then 29 else 28
  else if m = 4 ∨ m = 6 ∨ m = 9 ∨ m = 11 then 30 else 31

def IsDate (y m d : ℕ) : Prop := 1 ≤ m ∧ m ≤ 12 ∧ 1 ≤ d ∧ d ≤ daysInMonth y m

def IsTime (h mi s : ℕ) : Prop := h < 24 ∧ mi < 60 ∧ s < 60

/-- The number of days from 1 January 1970 to a date. -/
def dayNumber (y m d : ℕ) : ℕ :=
  ∑ k ∈ Finset.Ico 1970 y, daysInYear k + ∑ j ∈ Finset.Ico 1 m, daysInMonth y j + (d - 1)

/-- The Unix time of a date and a time of day. -/
def unixTime (y m d h mi s : ℕ) : ℕ := dayNumber y m d * 86400 + h * 3600 + mi * 60 + s

/-! ## Years that begin in March -/

/-- The number of days before 1 March of the year `y`, from 1 March of the year 0. -/
def marchStart (y : ℕ) : ℕ := 365 * y + y / 4 - y / 100 + y / 400

/-- The number of days of a year that begins in March before its month `mp`. -/
def monthStart (mp : ℕ) : ℕ := (153 * mp + 2) / 5

/-- The year of a date, if years begin in March. -/
def marchYear (y m : ℕ) : ℕ := if m ≤ 2 then y - 1 else y

/-- The month of a date, counted from March. -/
def marchMonth (m : ℕ) : ℕ := if 2 < m then m - 3 else m + 9

theorem isLeap_iff (y : ℕ) : IsLeap y ↔ 4 ∣ y ∧ (¬ 100 ∣ y ∨ 400 ∣ y) := by
  simp only [IsLeap, Nat.dvd_iff_mod_eq_zero, ne_eq]

/-- A year that begins in March is as long as the year of its February. -/
theorem marchStart_succ (y : ℕ) : marchStart (y + 1) = marchStart y + daysInYear (y + 1) := by
  have hle : y / 100 ≤ y / 4 := Nat.div_le_div_left (by decide) (by decide)
  have h400 : 400 ∣ y + 1 → 100 ∣ y + 1 := (show 100 ∣ 400 by decide).trans
  have h100 : 100 ∣ y + 1 → 4 ∣ y + 1 := (show 4 ∣ 100 by decide).trans
  unfold marchStart daysInYear
  simp only [isLeap_iff, Nat.succ_div]
  generalize y / 4 = a at *
  generalize y / 100 = b at *
  generalize y / 400 = c at *
  by_cases hd400 : 400 ∣ y + 1
  · have hd100 := h400 hd400
    simp only [hd400, hd100, h100 hd100, if_true, or_true, and_self]
    omega
  · by_cases hd100 : 100 ∣ y + 1
    · simp only [hd400, hd100, h100 hd100, if_true, if_false, not_true, or_self, and_false]
      omega
    · by_cases hd4 : 4 ∣ y + 1
      · simp only [hd400, hd100, hd4, if_true, if_false, not_false_eq_true, true_or, and_self]
        omega
      · simp only [hd400, hd100, hd4, if_false, false_and]
        omega

theorem sum_daysInYear {y : ℕ} (hy : 1970 ≤ y) :
    ∑ k ∈ Finset.Ico 1970 y, daysInYear k + 719162 = marchStart (y - 1) := by
  induction y, hy using Nat.le_induction with
  | base => simp [marchStart]
  | succ y hy ih =>
      have hsucc := marchStart_succ (y - 1)
      rw [Nat.sub_add_cancel (by omega)] at hsucc
      rw [Finset.sum_Ico_succ_top hy, Nat.add_right_comm, ih, Nat.add_sub_cancel, hsucc]

/-- In years that begin in March, the lengths of the months do not depend on the year. -/
theorem sum_daysInMonth {y m : ℕ} (hm : 1 ≤ m) (hm' : m ≤ 12) :
    ∑ j ∈ Finset.Ico 1 m, daysInMonth y j + 306 =
      monthStart (marchMonth m) + if m ≤ 2 then 0 else daysInYear y := by
  unfold daysInYear
  by_cases hleap : IsLeap y <;>
  · interval_cases m <;>
      simp [Finset.sum_Ico_succ_top, daysInMonth, hleap, monthStart, marchMonth]

/-- The day number of a date, in years that begin in March. -/
theorem dayNumber_eq {y m d : ℕ} (hy : 1970 ≤ y) (hm : 1 ≤ m) (hm' : m ≤ 12) :
    dayNumber y m d + 719468 = marchStart (marchYear y m) + monthStart (marchMonth m) + (d - 1) := by
  have hyear := sum_daysInYear hy
  have hmonth := sum_daysInMonth (y := y) hm hm'
  unfold dayNumber marchYear
  split at hmonth
  · rw [if_pos ‹_›]
    omega
  · have hnext := sum_daysInYear (hy.trans (Nat.le_succ y))
    rw [Finset.sum_Ico_succ_top hy, Nat.succ_sub_one] at hnext
    rw [if_neg ‹_›]
    omega

/-! ## From a date to its day -/

/-- Eras are alike. -/
theorem marchStart_era (era yoe : ℕ) :
    marchStart (era * 400 + yoe) = era * 146097 + marchStart yoe := by
  unfold marchStart
  omega

theorem monthStart_le {m : ℕ} (hm : m ≤ 12) : monthStart (marchMonth m) ≤ 337 := by
  unfold monthStart marchMonth
  split <;> omega

theorem daysInMonth_le (y m : ℕ) : daysInMonth y m ≤ 31 := by
  unfold daysInMonth
  split_ifs <;> decide

theorem marchStart_of_lt {yoe : ℕ} (h : yoe < 400) :
    marchStart yoe = 365 * yoe + yoe / 4 - yoe / 100 := by
  rw [marchStart, Nat.div_eq_of_lt h, Nat.add_zero]

/-- The day of an era, as it is added up. -/
theorem doe_eq {yoe doy : ℕ} (hyoe : yoe < 400) (hdoy : doy < 2 ^ 32) :
    (yoe * 365 + yoe / 4 - yoe / 100 + doy) % 2 ^ 64 = marchStart yoe + doy ∧
      marchStart yoe + doy < 2 ^ 63 := by
  have hstart := marchStart_of_lt hyoe
  have hsmall : marchStart yoe ≤ 366 * 400 := by omega
  rw [Nat.mul_comm yoe, ← hstart, Nat.mod_eq_of_lt (by omega)]
  exact ⟨rfl, by omega⟩

/-- A small word has the same value as a signed number. -/
theorem bmod_natCast {n : ℕ} (h : n < 2 ^ 63) : (n : ℤ).bmod (2 ^ 64) = n := by
  rw [Int.bmod_eq_of_le (by omega) (by omega)]

theorem daysFromCivil_eq {y m d : ℕ} (hy : 1970 ≤ y) (hdate : IsDate y m d) :
    daysFromCivil y m d = dayNumber y m d := by
  obtain ⟨hm, hm', hd, hd'⟩ := hdate
  have hnumber := dayNumber_eq (d := d) hy hm hm'
  have hmonth := monthStart_le hm'
  have hday := hd'.trans (daysInMonth_le y m)
  have hyears : (if m ≤ 2 then (y : ℤ) - 1 else y) = (marchYear y m : ℕ) := by
    unfold marchYear
    split <;> omega
  have hera : ((marchYear y m : ℕ) : ℤ).tdiv 400 = (marchYear y m / 400 : ℕ) := rfl
  have hyoe : ((marchYear y m : ℤ) - (marchYear y m / 400 : ℕ) * 400).toNat = marchYear y m % 400 := by
    omega
  have hdoy : ((153 * (if 2 < m then m - 3 else m + 9) + 2) / 5 + d + (2 ^ 64 - 1)) % 2 ^ 64 =
      monthStart (marchMonth m) + (d - 1) := by
    change (monthStart (marchMonth m) + d + (2 ^ 64 - 1)) % 2 ^ 64 = _
    omega
  unfold daysFromCivil
  simp only [hyears, Int.natCast_nonneg, if_true, hera, hyoe, hdoy]
  have hsplit := marchStart_era (marchYear y m / 400) (marchYear y m % 400)
  rw [Nat.div_add_mod' (marchYear y m) 400] at hsplit
  have hlt : marchYear y m % 400 < 400 := Nat.mod_lt _ (by decide)
  generalize marchYear y m % 400 = yoe at *
  obtain ⟨hdoe, hbound⟩ := doe_eq hlt (show monthStart (marchMonth m) + (d - 1) < 2 ^ 32 by omega)
  rw [hdoe, bmod_natCast hbound]
  omega

/-- The day number of a date with a year of 16 bits. -/
theorem dayNumber_lt {y m d : ℕ} (hy : 1970 ≤ y) (hy' : y < 2 ^ 16) (hdate : IsDate y m d) :
    dayNumber y m d < 2 ^ 32 := by
  obtain ⟨hm, hm', hd, hd'⟩ := hdate
  have hnumber := dayNumber_eq (d := d) hy hm hm'
  have hmonth := monthStart_le hm'
  have hday := hd'.trans (daysInMonth_le y m)
  have hyear : marchYear y m < 2 ^ 16 := by
    unfold marchYear
    split <;> omega
  have hstart : marchStart (marchYear y m) < 2 ^ 31 := by
    unfold marchStart
    omega
  omega

theorem timestamp_eq {y m d h mi s : ℕ} (hy : 1970 ≤ y) (hy' : y < 2 ^ 16) (hdate : IsDate y m d)
    (htime : IsTime h mi s) : timestamp y m d h mi s = unixTime y m d h mi s := by
  have hlt := dayNumber_lt hy hy' hdate
  obtain ⟨hh, hmi, hs⟩ := htime
  have hvalue : ((dayNumber y m d : ℤ) % 2 ^ 64).toNat = dayNumber y m d := by omega
  rw [timestamp, unixTime, daysFromCivil_eq hy hdate, hvalue]
  omega

/-! ## From a day to its date -/

/-- What `date_from` divides by 365: a day of an era, without the leap days before it. -/
def corrected (doe : ℕ) : ℕ := doe - doe / 1460 + doe / 36524 - doe / 146096

theorem corrected_mono {a b : ℕ} (hab : a ≤ b) (hb : b < 146097) : corrected a ≤ corrected b := by
  induction b, hab using Nat.le_induction with
  | base => rfl
  | succ b hab ih =>
      refine (ih (by omega)).trans ?_
      clear ih hab
      unfold corrected
      omega

/-- On the first day of a year and on the last. -/
theorem corrected_ends : ∀ yoe < 400, 365 * yoe ≤ corrected (marchStart yoe) ∧
    corrected (marchStart (yoe + 1) - 1) < 365 * (yoe + 1) := by
  decide +kernel

/-- The year of a day of an era. -/
theorem yoe_eq {yoe doe : ℕ} (hyoe : yoe < 400) (hle : marchStart yoe ≤ doe)
    (hlt : doe < marchStart (yoe + 1)) :
    (doe - doe / 1460 + doe / 36524 - doe / 146096) / 365 = yoe := by
  obtain ⟨hfirst, hlast⟩ := corrected_ends yoe hyoe
  have hera : marchStart (yoe + 1) ≤ 146097 := by
    unfold marchStart
    omega
  have hle := corrected_mono hle (by omega)
  have hlt := corrected_mono (Nat.le_sub_one_of_lt hlt) (by omega)
  change corrected doe / 365 = yoe
  omega

theorem marchStart_strictMono : StrictMono marchStart := by
  refine strictMono_nat_of_lt_succ fun y => ?_
  rw [marchStart_succ, daysInYear]
  split <;> omega

/-- Every day is in one of the years. -/
theorem exists_marchStart (n : ℕ) : ∃ y, marchStart y ≤ n ∧ n < marchStart (y + 1) := by
  induction n with
  | zero => exact ⟨0, by decide, by decide⟩
  | succ n ih =>
      obtain ⟨y, hle, hlt⟩ := ih
      obtain hlt | heq := Nat.lt_or_eq_of_le hlt
      · exact ⟨y, hle.trans (Nat.le_succ n), hlt⟩
      · exact ⟨y + 1, heq.ge, heq.trans_lt (marchStart_strictMono (Nat.lt_succ_self (y + 1)))⟩

/-- Every day of a year is in one of its months. -/
theorem exists_monthStart {doy : ℕ} (h : doy < 367) :
    ∃ mp < 12, monthStart mp ≤ doy ∧ doy < monthStart (mp + 1) := by
  unfold monthStart
  exact ⟨(5 * doy + 2) / 153, by omega, by omega, by omega⟩

/-- The month of a day of a year. -/
theorem mp_eq {mp doy : ℕ} (hle : monthStart mp ≤ doy) (hlt : doy < monthStart (mp + 1)) :
    (5 * doy + 2) / 153 = mp := by
  unfold monthStart at hle hlt
  omega

/-- `date_from` of a day that is in the year `y` and the month `mp` of years that begin in March. -/
theorem dateFrom_eq {u y mp e : ℕ} (hu : u / 86400 + 719468 = marchStart y + monthStart mp + e)
    (hmp : mp < 12) (hmonth : monthStart mp + e < monthStart (mp + 1))
    (hyear : monthStart mp + e < daysInYear (y + 1)) (hy : y < 2 ^ 16) :
    dateFrom u =
      ((y + if mp < 10 then 0 else 1) % 2 ^ 16, if mp < 10 then mp + 3 else mp - 9, e + 1) := by
  have hsplit := marchStart_era (y / 400) (y % 400)
  have hnext := marchStart_era (y / 400) (y % 400 + 1)
  rw [← Nat.add_assoc, Nat.div_add_mod' y 400, marchStart_succ] at hnext
  rw [Nat.div_add_mod' y 400] at hsplit
  have hlt : y % 400 < 400 := Nat.mod_lt _ (by decide)
  have hend : marchStart (y % 400 + 1) ≤ 146097 := marchStart_strictMono.monotone hlt
  obtain ⟨doe, hdoe⟩ : ∃ doe, doe = marchStart (y % 400) + (monthStart mp + e) := ⟨_, rfl⟩
  have hera : (u / 86400 + 719468) / 146097 = y / 400 := by omega
  have hrest : u / 86400 + 719468 - y / 400 * 146097 = doe := by omega
  have hyoe := yoe_eq hlt (show marchStart (y % 400) ≤ doe by omega) (by omega)
  have hdoy : doe - (365 * (y % 400) + y % 400 / 4 - y % 400 / 100) = monthStart mp + e := by
    rw [← marchStart_of_lt hlt, hdoe, Nat.add_sub_cancel_left]
  have hyears : (y % 400 + y / 400 * 400) % 2 ^ 16 = y := by omega
  have hday : (monthStart mp + e - (153 * mp + 2) / 5 + 1) % 2 ^ 8 = e + 1 := by
    unfold monthStart at *
    omega
  have hmonths : (if mp < 10 then mp + 3 else mp - 9) % 2 ^ 8 = if mp < 10 then mp + 3 else mp - 9 := by
    split <;> omega
  have hleap : (if (if mp < 10 then mp + 3 else mp - 9) ≤ 2 then 1 else 0) = if mp < 10 then 0 else 1 := by
    split
    · simp
    · rw [if_pos (by omega)]
  unfold dateFrom
  simp only [hera, hrest, hyoe, hdoy, mp_eq (Nat.le_add_right _ _) hmonth, hyears, hday, hmonths, hleap]

/-! ## Dates and days -/

theorem daysInYear_le (y : ℕ) : daysInYear y ≤ 366 := by
  unfold daysInYear
  split <;> decide

theorem daysInYear_ge (y : ℕ) : 365 ≤ daysInYear y := by
  unfold daysInYear
  split <;> decide

/-- Counted from March, only the length of the last month depends on the year. -/
theorem monthStart_add_daysInMonth {y m : ℕ} (hm : 1 ≤ m) (hm' : m ≤ 12) (h2 : m ≠ 2) :
    monthStart (marchMonth m) + daysInMonth y m = monthStart (marchMonth m + 1) ∧
      monthStart (marchMonth m + 1) ≤ 337 := by
  interval_cases m <;> first
    | exact absurd rfl h2
    | exact ⟨rfl, by decide⟩

theorem monthStart_add_february (y : ℕ) : monthStart 11 + daysInMonth y 2 = daysInYear y := by
  rw [daysInMonth, if_pos rfl, daysInYear]
  split <;> rfl

theorem marchMonth_cases {m : ℕ} (hm : 1 ≤ m) (hm' : m ≤ 12) :
    marchMonth m < 12 ∧ (marchMonth m < 10 ↔ 2 < m) ∧
      (if marchMonth m < 10 then marchMonth m + 3 else marchMonth m - 9) = m := by
  unfold marchMonth
  split
  · rw [if_pos (by omega)]
    omega
  · rw [if_neg (by omega)]
    omega

/-- A date, in years that begin in March. -/
theorem IsDate.march {y m d : ℕ} (hdate : IsDate y m d) (hy : 1 ≤ y) :
    monthStart (marchMonth m) + (d - 1) < monthStart (marchMonth m + 1) ∧
      monthStart (marchMonth m) + (d - 1) < daysInYear (marchYear y m + 1) := by
  obtain ⟨hm, hm', hd, hd'⟩ := hdate
  by_cases h2 : m = 2
  · subst h2
    have hfeb := monthStart_add_february y
    have hle : daysInYear y ≤ monthStart 12 := (daysInYear_le y).trans (by decide)
    rw [marchYear, if_pos le_rfl, Nat.sub_add_cancel hy]
    change monthStart 11 + (d - 1) < monthStart 12 ∧ monthStart 11 + (d - 1) < daysInYear y
    omega
  · obtain ⟨hlen, hle⟩ := monthStart_add_daysInMonth (y := y) hm hm' h2
    have hlong := daysInYear_ge (marchYear y m + 1)
    omega

/-- Every day from 1970 on has a date. -/
theorem exists_date (n : ℕ) : ∃ y m d, 1970 ≤ y ∧ IsDate y m d ∧ dayNumber y m d = n := by
  obtain ⟨y, hle, hlt⟩ := exists_marchStart (n + 719468)
  rw [marchStart_succ] at hlt
  have hyear := daysInYear_le (y + 1)
  have hdoy : n + 719468 - marchStart y < 367 := by omega
  obtain ⟨mp, hmp, hmle, hmlt⟩ := exists_monthStart hdoy
  obtain ⟨m, hm⟩ : ∃ m, m = if mp < 10 then mp + 3 else mp - 9 := ⟨_, rfl⟩
  have hmonth : 1 ≤ m ∧ m ≤ 12 ∧ marchMonth m = mp ∧ (m ≤ 2 ↔ 10 ≤ mp) := by
    unfold marchMonth
    split at hm <;> subst hm
    · rw [if_pos (by omega)]
      omega
    · rw [if_neg (by omega)]
      omega
  obtain ⟨hm1, hm12, hmarch, hm2⟩ := hmonth
  obtain ⟨y', hy'⟩ : ∃ y', y' = if m ≤ 2 then y + 1 else y := ⟨_, rfl⟩
  have hmarchYear : marchYear y' m = y := by
    rw [marchYear, hy']
    split <;> rfl
  obtain ⟨e, he⟩ := Nat.exists_eq_add_of_le hmle
  have hepoch : 1969 ≤ y := by
    by_contra hlt'
    have hle' := marchStart_strictMono.monotone (show y + 1 ≤ 1969 by omega)
    rw [marchStart_succ, show marchStart 1969 = 719162 from rfl] at hle'
    omega
  have h1970 : 1970 ≤ y' := by
    rw [hy']
    split
    · omega
    · by_contra hlt'
      obtain rfl : y = 1969 := by omega
      have hmarch10 : monthStart (mp + 1) ≤ 306 := by
        unfold monthStart
        omega
      rw [show marchStart 1969 = 719162 from rfl] at *
      omega
  refine ⟨y', m, e + 1, h1970, ⟨hm1, hm12, by omega, ?_⟩, ?_⟩
  · by_cases h2 : m = 2
    · subst h2
      have hfeb := monthStart_add_february y'
      have hmp : mp = 11 := hmarch.symm
      rw [if_pos le_rfl] at hy'
      subst hy' hmp
      omega
    · have hlen := (monthStart_add_daysInMonth (y := y') hm1 hm12 h2).1
      rw [hmarch] at hlen
      omega
  · have hnumber := dayNumber_eq (d := e + 1) h1970 hm1 hm12
    rw [hmarchYear, hmarch] at hnumber
    omega

/-- `date_from` and `time_from` give back a date and a time of day. -/
theorem dateFrom_unixTime {y m d h mi s : ℕ} (hy : 1970 ≤ y) (hy' : y < 2 ^ 16) (hdate : IsDate y m d)
    (htime : IsTime h mi s) :
    dateFrom (unixTime y m d h mi s) = (y, m, d) ∧ timeFrom (unixTime y m d h mi s) = (h, mi, s) := by
  obtain ⟨hh, hmi, hs⟩ := htime
  obtain ⟨hmonth, hyear⟩ := hdate.march (by omega)
  obtain ⟨hm, hm', hd, -⟩ := hdate
  have hnumber := dayNumber_eq (d := d) hy hm hm'
  obtain ⟨hmp, hten, hback⟩ := marchMonth_cases hm hm'
  have hday : unixTime y m d h mi s / 86400 = dayNumber y m d := by
    unfold unixTime
    omega
  have hrest : unixTime y m d h mi s % 86400 = h * 3600 + mi * 60 + s := by
    unfold unixTime
    omega
  have hle : marchYear y m ≤ y := by
    unfold marchYear
    split <;> omega
  have hyears : (marchYear y m + if marchMonth m < 10 then 0 else 1) % 2 ^ 16 = y := by
    unfold marchYear
    split <;> split <;> omega
  have hdate := dateFrom_eq (hday ▸ hnumber) hmp hmonth hyear (hle.trans_lt hy')
  rw [hyears, hback, Nat.sub_add_cancel hd] at hdate
  refine ⟨hdate, ?_⟩
  simp only [timeFrom, hrest, Prod.mk.injEq]
  omega

theorem dayNumber_first (y : ℕ) : dayNumber y 1 1 = ∑ k ∈ Finset.Ico 1970 y, daysInYear k := by
  simp [dayNumber]

/-- No date is before the first day of its year. -/
theorem dayNumber_first_le {y y' m d : ℕ} (hy : y' ≤ y) : dayNumber y' 1 1 ≤ dayNumber y m d := by
  have hsub : Finset.Ico 1970 y' ⊆ Finset.Ico 1970 y := Finset.Ico_subset_Ico_right hy
  have hsum := Finset.sum_le_sum_of_subset (f := daysInYear) hsub
  rw [dayNumber_first, dayNumber]
  omega

/-- Every date is before the first day of the next year. -/
theorem dayNumber_lt_first {y m d : ℕ} (hy : 1970 ≤ y) (hdate : IsDate y m d) :
    dayNumber y m d < dayNumber (y + 1) 1 1 := by
  obtain ⟨hm, hm', hd, hd'⟩ := hdate
  have hyear : ∑ j ∈ Finset.Ico 1 13, daysInMonth y j = daysInYear y := by
    have hsum := sum_daysInMonth (y := y) (m := 12) (by decide) le_rfl
    rw [if_neg (by decide), show monthStart (marchMonth 12) = 275 from rfl] at hsum
    rw [Finset.sum_Ico_succ_top (by decide), show daysInMonth y 12 = 31 from rfl]
    omega
  have hsub : Finset.Ico 1 (m + 1) ⊆ Finset.Ico 1 13 := Finset.Ico_subset_Ico_right (by omega)
  have hmonth := Finset.sum_le_sum_of_subset (f := daysInMonth y) hsub
  rw [Finset.sum_Ico_succ_top hm] at hmonth
  rw [dayNumber_first, Finset.sum_Ico_succ_top hy, dayNumber]
  omega

theorem unixTime_lt_first_iff {y y' m d h mi s : ℕ} (htime : IsTime h mi s) :
    unixTime y m d h mi s < unixTime y' 1 1 0 0 0 ↔ dayNumber y m d < dayNumber y' 1 1 := by
  obtain ⟨hh, hmi, hs⟩ := htime
  unfold unixTime
  omega

/-- The Unix times of the years from 1970 to 65535, and their dates and times of day, correspond. -/
theorem calendar_round_trip :
    (∀ u < unixTime 65536 1 1 0 0 0, ∃ y m d h mi s, dateFrom u = (y, m, d) ∧ timeFrom u = (h, mi, s) ∧
      1970 ≤ y ∧ y ≤ 65535 ∧ IsDate y m d ∧ IsTime h mi s ∧ timestamp y m d h mi s = u) ∧
    ∀ y m d h mi s, 1970 ≤ y → y ≤ 65535 → IsDate y m d → IsTime h mi s →
      timestamp y m d h mi s < unixTime 65536 1 1 0 0 0 ∧
        dateFrom (timestamp y m d h mi s) = (y, m, d) ∧
          timeFrom (timestamp y m d h mi s) = (h, mi, s) := by
  refine ⟨fun u hu => ?_, fun y m d h mi s hy hy' hdate htime => ?_⟩
  · obtain ⟨y, m, d, hy, hdate, hnumber⟩ := exists_date (u / 86400)
    have htime : IsTime (u % 86400 / 3600) (u % 86400 / 60 % 60) (u % 86400 % 60) := by
      unfold IsTime
      omega
    have hunix : unixTime y m d (u % 86400 / 3600) (u % 86400 / 60 % 60) (u % 86400 % 60) = u := by
      unfold unixTime
      omega
    have hy' : y ≤ 65535 := by
      by_contra hgt
      have hle := dayNumber_first_le (m := m) (d := d) (Nat.lt_of_not_le hgt)
      rw [← hunix, unixTime_lt_first_iff htime] at hu
      exact absurd hle (Nat.not_le.mpr hu)
    obtain ⟨hback, hback'⟩ := dateFrom_unixTime hy (Nat.lt_succ_of_le hy') hdate htime
    rw [hunix] at hback hback'
    refine ⟨y, m, d, _, _, _, hback, hback', hy, hy', hdate, htime, ?_⟩
    rw [timestamp_eq hy (Nat.lt_succ_of_le hy') hdate htime, hunix]
  · obtain ⟨hback, hback'⟩ := dateFrom_unixTime hy (Nat.lt_succ_of_le hy') hdate htime
    rw [timestamp_eq hy (Nat.lt_succ_of_le hy') hdate htime]
    have hlast := dayNumber_first_le (m := 1) (d := 1) (Nat.succ_le_succ hy')
    have hlt := (dayNumber_lt_first hy hdate).trans_le hlast
    exact ⟨(unixTime_lt_first_iff htime).mpr hlt, hback, hback'⟩

end Ilobilix.Lib
