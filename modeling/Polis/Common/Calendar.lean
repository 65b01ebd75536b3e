import Mathlib.Data.Int.SuccPred
import Mathlib.Tactic.IntervalCases
import Mathlib.Data.Int.ConditionallyCompleteOrder

/-!
# The civil calendar

Days are counted from 1 January 1970. The year of a day is the last one that has begun, and the month and the
date are read from a table of the days of that year. Counting in eras of 400 years that begin in March gives the
same date without a table and without a search.
-/

namespace Polis.Calendar

open Nat

/-! ## By years that begin in January -/

/-- The day on which a year begins. -/
def dayFromYear (y : ℤ) : ℤ :=
  365 * (y - 1970) + (y - 1969) / 4 - (y - 1901) / 100 + (y - 1601) / 400

/-- The last year that has begun, of those from -300000 on. -/
def yearFromDay (day : ℤ) : ℤ :=
  (Nat.findGreatest (fun n : ℕ => dayFromYear (n - 300000) ≤ day) (302000 + (day / 365).toNat) : ℤ) - 300000

def inLeapYear (y : ℤ) : Bool := decide (y % 4 = 0 ∧ (y % 100 ≠ 0 ∨ y % 400 = 0))

/-- The day of the year after each of the months. -/
def monthEnds (leap : Bool) : List ℕ :=
  31 :: [59, 90, 120, 151, 181, 212, 243, 273, 304, 334, 365].map (· + leap.toNat)

/-- The month of a day of the year, from 0. -/
def monthFromDay (leap : Bool) (k : ℕ) : ℕ := (monthEnds leap).findIdx fun e => decide (k < e)

/-- The date within its month, from 1. -/
def dateFromDay (leap : Bool) (k : ℕ) : ℕ := k - (0 :: monthEnds leap).getD (monthFromDay leap k) 0 + 1

/-- A date; months and days are counted from 1. -/
structure Civil where
  year : ℤ
  month : ℕ
  day : ℕ
deriving DecidableEq, Repr

def civil (day : ℤ) : Civil :=
  let year := yearFromDay day
  let leap := inLeapYear year
  let k := (day - dayFromYear year).toNat
  ⟨year, monthFromDay leap k + 1, dateFromDay leap k⟩

/-! ## By eras that begin in March -/

/-- The date of a day from 1970 on; the numbers are at no point negative. -/
def civilFromDays (days : ℕ) : Civil :=
  let z := days + 719468
  let era := z / 146097
  let doe := z - era * 146097
  let yoe := (doe - doe / 1460 + doe / 36524 - doe / 146096) / 365
  let doy := doe - (365 * yoe + yoe / 4 - yoe / 100)
  let mp := (5 * doy + 2) / 153
  let day := doy - (153 * mp + 2) / 5 + 1
  let month := if mp < 10 then mp + 3 else mp - 9
  ⟨((yoe + era * 400 + if month ≤ 2 then 1 else 0 : ℕ) : ℤ), month, day⟩

/-! ## The year of a day -/

theorem dayFromYear_succ (y : ℤ) : dayFromYear (y + 1) = dayFromYear y + 365 + (inLeapYear y).toNat := by
  have hfour : (y + 1 - 1969) / 4 = (y - 1969) / 4 + if y % 4 = 0 then 1 else 0 := by
    split <;> omega
  have hhundred : (y + 1 - 1901) / 100 = (y - 1901) / 100 + if y % 100 = 0 then 1 else 0 := by
    split <;> omega
  have hera : (y + 1 - 1601) / 400 = (y - 1601) / 400 + if y % 400 = 0 then 1 else 0 := by
    split <;> omega
  unfold dayFromYear
  rw [hfour, hhundred, hera]
  by_cases h : y % 4 = 0 ∧ (y % 100 ≠ 0 ∨ y % 400 = 0)
  · have hleap : inLeapYear y = true := decide_eq_true h
    rw [hleap, Bool.toNat_true]
    split_ifs <;> omega
  · have hleap : inLeapYear y = false := decide_eq_false h
    rw [hleap, Bool.toNat_false]
    split_ifs <;> omega

theorem dayFromYear_mono : Monotone dayFromYear :=
  monotone_int_of_le_succ fun y => by
    rw [dayFromYear_succ]
    omega

/-- A year from 1970 on is the year of the days that it has. -/
theorem yearFromDay_eq {day y : ℤ} (hy : 1970 ≤ y) (hbegun : dayFromYear y ≤ day)
    (hnext : day < dayFromYear (y + 1)) : yearFromDay day = y := by
  have hfind : Nat.findGreatest (fun n : ℕ => dayFromYear (n - 300000) ≤ day)
      (302000 + (day / 365).toNat) = (y + 300000).toNat := by
    have hcast : (((y + 300000).toNat : ℕ) : ℤ) - 300000 = y := by omega
    refine findGreatest_eq_iff.2 ⟨?_, fun _ => ?_, fun n hn _ hle => ?_⟩
    · unfold dayFromYear at hbegun
      omega
    · rwa [hcast]
    · have := dayFromYear_mono (show y + 1 ≤ (n : ℤ) - 300000 by omega)
      omega
  rw [yearFromDay, hfind]
  omega

/-! ## Eras -/

/-- A day counted from 1 March of year 0: its era, century, leap cycle, year and day of the year. The day
beyond the 365th is the last of a leap cycle that does not end a century, or of the last century. -/
theorem era_split (z : ℕ) : ∃ era c u w x, c ≤ 3 ∧ u ≤ 24 ∧ w ≤ 3 ∧ x ≤ 365 ∧
    (x = 365 → w = 3 ∧ (u < 24 ∨ c = 3)) ∧ z = 146097 * era + 36524 * c + 1461 * u + 365 * w + x := by
  have hn : z % 146097 < 146097 := mod_lt _ (by decide)
  have hz : z = 146097 * (z / 146097) + z % 146097 := (div_add_mod z 146097).symm
  generalize z / 146097 = era at hz
  generalize z % 146097 = n at hn hz
  obtain ⟨c, m, hc, hm, rfl⟩ : ∃ c m, c ≤ 3 ∧ m ≤ 36523 + (if c = 3 then 1 else 0) ∧ n = 36524 * c + m := by
    refine ⟨min (n / 36524) 3, n - 36524 * min (n / 36524) 3, by omega, ?_, by omega⟩
    split <;> omega
  have hu : m / 1461 ≤ 24 := by
    split at hm <;> omega
  refine ⟨era, c, m / 1461, min (m % 1461 / 365) 3, m % 1461 - 365 * min (m % 1461 / 365) 3, hc, hu, by omega,
    by omega, fun hx => ⟨by omega, ?_⟩, by omega⟩
  by_cases h3 : c = 3
  · exact .inr h3
  · rw [if_neg h3] at hm
    exact .inl (by omega)

section Era

variable {doe c u w x : ℕ} (hc : c ≤ 3) (hu : u ≤ 24) (hw : w ≤ 3) (hx : x ≤ 365)
  (hlast : x = 365 → w = 3 ∧ (u < 24 ∨ c = 3)) (hdoe : doe = 36524 * c + 1461 * u + 365 * w + x)

include hc hu hw hx hlast hdoe

/-- The last day of an era, and no other, is beyond its fourth century of 36524 days. -/
theorem century_div : doe / 36524 = c + doe / 146096 := by
  by_cases hend : x = 365 ∧ u = 24
  · obtain ⟨rfl, rfl⟩ := hend
    obtain ⟨rfl, h⟩ := hlast rfl
    obtain rfl : c = 3 := h.resolve_left (lt_irrefl _)
    rw [hdoe]
  · have hrest : 1461 * u + 365 * w + x ≤ 36523 := by omega
    have hlt : doe < 146096 := by omega
    rw [div_eq_of_lt hlt]
    omega

/-- The year of the era, from the day of the era. -/
theorem yearOfEra : (doe - doe / 1460 + doe / 36524 - doe / 146096) / 365 = 100 * c + 4 * u + w := by
  have hcycles : doe / 1460 = 25 * c + u + (24 * c + u + 365 * w + x) / 1460 := by
    have : doe = 1460 * (25 * c + u) + (24 * c + u + 365 * w + x) := by omega
    rw [this, mul_add_div (by decide)]
  have hcenturies := century_div hc hu hw hx hlast hdoe
  -- The days that the count by 1460 has fallen behind in the open cycle.
  have hcarry : (24 * c + u + 365 * w + x) / 1460 ≤ x := by
    clear hcenturies hcycles hdoe hlast
    omega
  have hover : x ≤ 364 + (24 * c + u + 365 * w + x) / 1460 := by
    by_cases h : x = 365
    · rw [(hlast h).1, h]
      have : 1 ≤ (24 * c + u + 365 * 3 + 365) / 1460 := (le_div_iff_mul_le (by decide)).2 (by omega)
      omega
    · omega
  rw [hcycles, hcenturies]
  generalize (24 * c + u + 365 * w + x) / 1460 = carry at hcarry hover
  obtain ⟨r, rfl⟩ := Nat.exists_eq_add_of_le hcarry
  have hsum : doe = 25 * c + u + carry + (36499 * c + 1460 * u + 365 * w + r) := by omega
  rw [show doe - (25 * c + u + carry) = 36499 * c + 1460 * u + 365 * w + r from Nat.sub_eq_of_eq_add' hsum,
    ← add_assoc, Nat.add_sub_cancel]
  have hyears : 36499 * c + 1460 * u + 365 * w + r + c = 365 * (100 * c + 4 * u + w) + r := by omega
  rw [hyears, mul_add_div (by decide), div_eq_of_lt (by omega), add_zero]

end Era

/-! ## Months -/

theorem month_from_march : ∀ leap : Bool, ∀ x < 306,
    (5 * x + 2) / 153 < 10 ∧ monthFromDay leap (x + 59 + leap.toNat) + 1 = (5 * x + 2) / 153 + 3 ∧
      dateFromDay leap (x + 59 + leap.toNat) = x - (153 * ((5 * x + 2) / 153) + 2) / 5 + 1 := by
  decide +kernel

theorem month_from_january : ∀ leap : Bool, ∀ k < 59 + leap.toNat,
    10 ≤ (5 * (k + 306) + 2) / 153 ∧ (5 * (k + 306) + 2) / 153 ≤ 11 ∧
      monthFromDay leap k + 1 = (5 * (k + 306) + 2) / 153 - 9 ∧
      dateFromDay leap k = k + 306 - (153 * ((5 * (k + 306) + 2) / 153) + 2) / 5 + 1 := by
  decide +kernel

/-! ## The two dates are the same -/

section Date

variable {days era c u w x : ℕ} {y : ℤ} (hc : c ≤ 3) (hu : u ≤ 24) (hw : w ≤ 3)
  (hyear : y = 400 * era + 100 * c + 4 * u + w)

include hc hu hw hyear

/-- The last year of a leap cycle is followed by a leap year, unless it ends one of the first centuries. -/
theorem leap_next : inLeapYear (y + 1) = decide (w = 3 ∧ (u < 24 ∨ c = 3)) := by
  unfold inLeapYear
  congr 1
  refine propext ?_
  omega

theorem dayFromYear_next :
    dayFromYear (y + 1) = 146097 * era + 36524 * c + 1461 * u + 365 * w - 719468 + 306 := by
  have hfour : (y + 1 - 1969) / 4 = 100 * era + 25 * c + u - 492 := by omega
  have hhundred : (y + 1 - 1901) / 100 = 4 * era + c - 19 := by omega
  have hera : (y + 1 - 1601) / 400 = era - 4 := by omega
  unfold dayFromYear
  rw [hfour, hhundred, hera]
  omega

end Date

/-- The date, by the parts of the day: a year that begins in March and the day of this year. -/
theorem civilFromDays_split (days : ℕ) : ∃ era c u w x, c ≤ 3 ∧ u ≤ 24 ∧ w ≤ 3 ∧ x ≤ 365 ∧
    (x = 365 → w = 3 ∧ (u < 24 ∨ c = 3)) ∧
    days + 719468 = 146097 * era + 36524 * c + 1461 * u + 365 * w + x ∧
    civilFromDays days =
      let mp := (5 * x + 2) / 153
      let month := if mp < 10 then mp + 3 else mp - 9
      ⟨((100 * c + 4 * u + w + era * 400 + if month ≤ 2 then 1 else 0 : ℕ) : ℤ), month,
        x - (153 * mp + 2) / 5 + 1⟩ := by
  obtain ⟨era, c, u, w, x, hc, hu, hw, hx, hlast, hz⟩ := era_split (days + 719468)
  have hdiv : (days + 719468) / 146097 = era := by omega
  have hdoe : days + 719468 - era * 146097 = 36524 * c + 1461 * u + 365 * w + x := by omega
  have hfour : (100 * c + 4 * u + w) / 4 = 25 * c + u := by omega
  have hhundred : (100 * c + 4 * u + w) / 100 = c := by omega
  have hdoy : 36524 * c + 1461 * u + 365 * w + x -
      (365 * (100 * c + 4 * u + w) + (100 * c + 4 * u + w) / 4 - (100 * c + 4 * u + w) / 100) = x := by
    rw [hfour, hhundred]
    omega
  refine ⟨era, c, u, w, x, hc, hu, hw, hx, hlast, hz, ?_⟩
  simp only [civilFromDays, hdiv, hdoe, yearOfEra hc hu hw hx hlast rfl, hdoy]

theorem civilFromDays_month (days : ℕ) :
    1 ≤ (civilFromDays days).month ∧ (civilFromDays days).month ≤ 12 := by
  obtain ⟨era, c, u, w, x, -, -, -, hx, -, -, hdate⟩ := civilFromDays_split days
  rw [hdate]
  dsimp only
  split <;> omega

theorem civilFromDays_year (days : ℕ) : 1970 ≤ (civilFromDays days).year := by
  obtain ⟨era, c, u, w, x, hc, hu, hw, hx, -, hz, hdate⟩ := civilFromDays_split days
  rw [hdate]
  dsimp only
  split_ifs <;> omega

/-- Counting in eras gives the date of the calendar. -/
theorem civilFromDays_eq (days : ℕ) : civilFromDays days = civil days := by
  obtain ⟨era, c, u, w, x, hc, hu, hw, hx, hlast, hz, hdate⟩ := civilFromDays_split days
  rw [hdate]
  dsimp only
  -- The year that begins in March.
  obtain ⟨y, hyear⟩ : ∃ y : ℤ, y = 400 * era + 100 * c + 4 * u + w := ⟨_, rfl⟩
  have hnext := dayFromYear_next hc hu hw hyear
  have hleap := leap_next hc hu hw hyear
  have hlate : 1970 ≤ y + 1 := by omega
  by_cases hmarch : x < 306
  · -- The year of January is the same one.
    have hthis := dayFromYear_succ y
    have hy : 1970 ≤ y := by omega
    have hyears : yearFromDay days = y := yearFromDay_eq hy (by omega) (by omega)
    have hk : ((days : ℤ) - dayFromYear y).toNat = x + 59 + (inLeapYear y).toNat := by omega
    obtain ⟨hten, hmonth, hday⟩ := month_from_march (inLeapYear y) x hmarch
    simp only [civil, hyears, hk, hmonth, hday, if_pos hten]
    rw [if_neg (by omega)]
    congr 1
    omega
  · -- January and February belong to the next year.
    have hthis := dayFromYear_succ (y + 1)
    have hearly : x - 306 < 59 + (inLeapYear (y + 1)).toNat := by
      by_cases h : x = 365
      · rw [hleap, decide_eq_true (hlast h), Bool.toNat_true]
        omega
      · omega
    have hyears : yearFromDay days = y + 1 := yearFromDay_eq hlate (by omega) (by omega)
    have hk : ((days : ℤ) - dayFromYear (y + 1)).toNat = x - 306 := by omega
    obtain ⟨hten, heleven, hmonth, hday⟩ := month_from_january (inLeapYear (y + 1)) (x - 306) hearly
    rw [Nat.sub_add_cancel (not_lt.1 hmarch)] at hten heleven hmonth hday
    simp only [civil, hyears, hk, hmonth, hday, if_neg (not_lt.2 hten)]
    rw [if_pos (by omega)]
    congr 1
    omega

end Polis.Calendar
