/-
# Day numbers

Days are numbered through, 1 January of year 1 is day 1.  The number of a date is found from the
numbers of days before its year and before its month (`Date.dayNumber`); back from a number, the
year follows from an estimate that is off by at most one, and the month from the day of the year
(`Date.ofDayNumber?`).

The main fact is `Date.ofDayNumber?_eq_some_iff`: the two directions undo each other.  Weekdays
follow from the number, because day 1 was a Monday.
-/
import Recurrence.Moment.Date

namespace Recurrence

/-! ## Years -/

/-- The number of the last day before a year. -/
def daysBeforeYear (year : Int) : Int :=
  365 * (year - 1) + (year - 1) / 4 - (year - 1) / 100 + (year - 1) / 400

/-- A year adds its own length. -/
theorem daysBeforeYear_succ (year : Int) :
    daysBeforeYear (year + 1) = daysBeforeYear year + yearLength year := by
  simp only [daysBeforeYear, yearLength]
  split
  · next h => unfold IsLeapYear at h; omega
  · next h => unfold IsLeapYear at h; omega

/-- 400 years have 146097 days, and no year strays far from that mean. -/
theorem daysBeforeYear_bounds (year : Int) :
    146097 * (year - 1) - 591 ≤ 400 * daysBeforeYear year ∧
      400 * daysBeforeYear year ≤ 146097 * (year - 1) + 297 := by
  unfold daysBeforeYear
  omega

/-- No year begins before an earlier one has ended. -/
theorem daysBeforeYear_mono {x y : Int} (h : x < y) :
    daysBeforeYear (x + 1) ≤ daysBeforeYear y := by
  unfold daysBeforeYear
  omega

/-- The year of day `n`: the mean length of a year gives it or the year before. -/
def yearOfDay (n : Int) : Int :=
  let estimate := 400 * (n + 1) / 146097
  if n ≤ daysBeforeYear (estimate + 1) then estimate else estimate + 1

/-- The year that is found holds the day. -/
theorem mem_yearOfDay (n : Int) :
    daysBeforeYear (yearOfDay n) < n ∧ n ≤ daysBeforeYear (yearOfDay n + 1) := by
  simp only [yearOfDay]
  generalize he : 400 * (n + 1) / 146097 = e
  have h₀ := daysBeforeYear_bounds e
  have h₂ := daysBeforeYear_bounds (e + 2)
  split
  · next h => exact ⟨by omega, h⟩
  · next h =>
    rw [show e + 1 + 1 = e + 2 by omega]
    exact ⟨by omega, by omega⟩

/-- No other year holds it. -/
theorem yearOfDay_eq {year n : Int} (h₁ : daysBeforeYear year < n)
    (h₂ : n ≤ daysBeforeYear (year + 1)) : yearOfDay n = year := by
  have h := mem_yearOfDay n
  rcases Int.lt_trichotomy (yearOfDay n) year with hlt | heq | hgt
  · have := daysBeforeYear_mono hlt
    omega
  · exact heq
  · have := daysBeforeYear_mono hgt
    omega

/-! ## Months -/

/-- The number of days of a year before a month: what it would be if February had 30 days, less
the days that February lacks. -/
def daysBeforeMonth (year month : Int) : Int :=
  (367 * month - 362) / 12 - if month ≤ 2 then 0 else if IsLeapYear year then 1 else 2

/-- A month adds its own length. -/
theorem daysBeforeMonth_succ (year month : Int) (h : 1 ≤ month ∧ month ≤ 12) :
    daysBeforeMonth year (month + 1) = daysBeforeMonth year month + monthLength year month := by
  have cases : month = 1 ∨ month = 2 ∨ month = 3 ∨ month = 4 ∨ month = 5 ∨ month = 6 ∨ month = 7 ∨
      month = 8 ∨ month = 9 ∨ month = 10 ∨ month = 11 ∨ month = 12 := by omega
  unfold daysBeforeMonth monthLength
  by_cases hl : IsLeapYear year
  · rcases cases with rfl | rfl | rfl | rfl | rfl | rfl | rfl | rfl | rfl | rfl | rfl | rfl <;>
      simp [hl]
  · rcases cases with rfl | rfl | rfl | rfl | rfl | rfl | rfl | rfl | rfl | rfl | rfl | rfl <;>
      simp [hl]

theorem daysBeforeMonth_thirteen (year : Int) : daysBeforeMonth year 13 = yearLength year := by
  by_cases hl : IsLeapYear year <;> simp [daysBeforeMonth, yearLength, hl]

theorem daysBeforeMonth_one (year : Int) : daysBeforeMonth year 1 = 0 := by
  simp [daysBeforeMonth]

/-- No month begins before an earlier one has ended. -/
theorem daysBeforeMonth_mono (year : Int) {x y : Int} (h : x < y) :
    daysBeforeMonth year (x + 1) ≤ daysBeforeMonth year y := by
  unfold daysBeforeMonth
  split <;> split <;> (try split) <;> omega

/-- The month of the `n`th day of a year. -/
def monthOfDay (year n : Int) : Int :=
  let lacking := if n ≤ daysBeforeMonth year 3 then 0 else if IsLeapYear year then 1 else 2
  (12 * (n + lacking) + 361) / 367

/-- The month that is found holds the day. -/
theorem mem_monthOfDay {year n : Int} (h : 1 ≤ n ∧ n ≤ yearLength year) :
    (1 ≤ monthOfDay year n ∧ monthOfDay year n ≤ 12) ∧
      daysBeforeMonth year (monthOfDay year n) < n ∧
      n ≤ daysBeforeMonth year (monthOfDay year n + 1) := by
  by_cases hl : IsLeapYear year
  · simp only [yearLength, monthOfDay, daysBeforeMonth, hl, if_true] at h ⊢
    omega
  · simp only [yearLength, monthOfDay, daysBeforeMonth, hl, if_false] at h ⊢
    omega

/-- No other month holds it. -/
theorem monthOfDay_eq {year month n : Int} (hn : 1 ≤ n ∧ n ≤ yearLength year)
    (h₁ : daysBeforeMonth year month < n) (h₂ : n ≤ daysBeforeMonth year (month + 1)) :
    monthOfDay year n = month := by
  have h := mem_monthOfDay hn
  rcases Int.lt_trichotomy (monthOfDay year n) month with hlt | heq | hgt
  · have := daysBeforeMonth_mono year hlt
    omega
  · exact heq
  · have := daysBeforeMonth_mono year hgt
    omega

/-! ## Dates -/

namespace Date

/-- The number of a date. -/
def dayNumber (d : Date) : Int := daysBeforeYear d.year + daysBeforeMonth d.year d.month + d.day

/-- The date with a given number, if its year has dates. -/
def ofDayNumber? (n : Int) : Option Date :=
  let year := yearOfDay n
  let dayOfYear := n - daysBeforeYear year
  let month := monthOfDay year dayOfYear
  ofCivil? year month (dayOfYear - daysBeforeMonth year month)

/-- The weekday of a date, from Monday, 1, to Sunday, 7. -/
def weekday (d : Date) : Int := (d.dayNumber - 1) % 7 + 1

theorem weekday_bounds (d : Date) : 1 ≤ d.weekday ∧ d.weekday ≤ 7 := by
  unfold weekday
  omega

/-- A date lies within its month. -/
theorem dayOfYear_mem (d : Date) :
    daysBeforeMonth d.year d.month < d.dayNumber - daysBeforeYear d.year ∧
      d.dayNumber - daysBeforeYear d.year ≤ daysBeforeMonth d.year (d.month + 1) := by
  have h := d.day_mem
  rw [daysBeforeMonth_succ _ _ d.month_mem]
  unfold dayNumber
  omega

/-- A date lies within its year. -/
theorem dayOfYear_bounds (d : Date) :
    1 ≤ d.dayNumber - daysBeforeYear d.year ∧
      d.dayNumber - daysBeforeYear d.year ≤ yearLength d.year := by
  have h := d.dayOfYear_mem
  have hm := d.month_mem
  have h₁ : 0 ≤ daysBeforeMonth d.year d.month := by
    have h₀ := daysBeforeMonth_one d.year
    by_cases hd : d.month = 1
    · exact Int.le_of_eq (hd ▸ h₀.symm)
    · have h₂ := daysBeforeMonth_mono d.year (x := 1) (y := d.month) (by omega)
      have h₃ := daysBeforeMonth_succ d.year 1 (by omega)
      have h₄ := monthLength_bounds d.year 1
      omega
  have h₁₃ : daysBeforeMonth d.year (d.month + 1) ≤ yearLength d.year := by
    rw [← daysBeforeMonth_thirteen]
    by_cases hd : d.month = 12
    · exact Int.le_of_eq (congrArg _ (show d.month + 1 = 13 by omega))
    · have h₂ := daysBeforeMonth_mono d.year (x := d.month + 1) (y := 13) (by omega)
      have h₃ := daysBeforeMonth_succ d.year (d.month + 1) (by omega)
      have h₄ := monthLength_bounds d.year (d.month + 1)
      omega
  omega

theorem yearOfDay_dayNumber (d : Date) : yearOfDay d.dayNumber = d.year := by
  have h := d.dayOfYear_bounds
  have hs := daysBeforeYear_succ d.year
  exact yearOfDay_eq (by omega) (by omega)

/-- A date is found from its number. -/
theorem ofDayNumber?_dayNumber (d : Date) : ofDayNumber? d.dayNumber = some d := by
  simp only [ofDayNumber?, yearOfDay_dayNumber]
  have h := d.dayOfYear_mem
  rw [monthOfDay_eq d.dayOfYear_bounds h.1 h.2, ofCivil?_eq_some_iff]
  refine ⟨rfl, rfl, ?_⟩
  unfold dayNumber
  omega

/-- A number and its date determine each other. -/
theorem ofDayNumber?_eq_some_iff {n : Int} {d : Date} :
    ofDayNumber? n = some d ↔ d.dayNumber = n := by
  constructor
  · intro h
    simp only [ofDayNumber?, ofCivil?_eq_some_iff] at h
    obtain ⟨hy, hm, hd⟩ := h
    unfold dayNumber
    rw [hd, hm, hy]
    omega
  · rintro rfl
    exact d.ofDayNumber?_dayNumber

/-- Different dates have different numbers. -/
theorem dayNumber_injective {d e : Date} (h : d.dayNumber = e.dayNumber) : d = e := by
  have hd := d.ofDayNumber?_dayNumber
  rw [h, e.ofDayNumber?_dayNumber] at hd
  exact (Option.some.inj hd).symm

/-- The number of the first date. -/
def firstNumber : Int := daysBeforeYear firstYear + 1

/-- The number of the last date. -/
def lastNumber : Int := daysBeforeYear (lastYear + 1)

/-- All numbers of dates lie between those of the first and the last date. -/
theorem dayNumber_bounds (d : Date) : firstNumber ≤ d.dayNumber ∧ d.dayNumber ≤ lastNumber := by
  have hy := d.year_mem
  have h := d.dayOfYear_bounds
  have hs := daysBeforeYear_succ d.year
  have h₁ : daysBeforeYear firstYear ≤ daysBeforeYear d.year := by
    unfold daysBeforeYear
    omega
  have h₂ : daysBeforeYear (d.year + 1) ≤ daysBeforeYear (lastYear + 1) := by
    unfold daysBeforeYear
    omega
  unfold firstNumber lastNumber
  omega

/-- The numbers without a date are those before the first and after the last. -/
theorem ofDayNumber?_eq_none_iff {n : Int} :
    ofDayNumber? n = none ↔ n < firstNumber ∨ lastNumber < n := by
  constructor
  · intro h
    simp only [ofDayNumber?, ofCivil?_eq_none_iff] at h
    have hy := mem_yearOfDay n
    generalize yearOfDay n = year at h hy
    have hs := daysBeforeYear_succ year
    have hm := mem_monthOfDay
      (show 1 ≤ n - daysBeforeYear year ∧ n - daysBeforeYear year ≤ yearLength year by omega)
    generalize monthOfDay year (n - daysBeforeYear year) = month at h hm
    have hms := daysBeforeMonth_succ year month hm.1
    unfold firstNumber lastNumber
    rcases Int.lt_or_le year firstYear with hlt | hle
    · have := daysBeforeYear_mono hlt
      omega
    · rcases Int.lt_or_le lastYear year with hlt | hle'
      · have := daysBeforeYear_mono hlt
        omega
      · exact absurd ⟨⟨hle, hle'⟩, hm.1, by omega, by omega⟩ h
  · intro h
    rcases hd : ofDayNumber? n with _ | d
    · rfl
    · have hb := d.dayNumber_bounds
      rw [ofDayNumber?_eq_some_iff.mp hd] at hb
      omega

/-! ## Steps of a day and of a month -/

theorem dayNumber_firstOfMonth (d : Date) : d.firstOfMonth.dayNumber = d.dayNumber - d.day + 1 := by
  simp only [dayNumber, firstOfMonth]
  omega

/-- The last of the month is as many days on as the month has left. -/
theorem dayNumber_lastOfMonth (d : Date) :
    d.lastOfMonth.dayNumber = d.dayNumber - d.day + d.lengthOfMonth := by
  simp only [dayNumber, lastOfMonth]
  omega

/-- The next month begins the day after this one ends. -/
theorem dayNumber_of_firstOfNextMonth? {d e : Date} (h : d.firstOfNextMonth? = some e) :
    e.dayNumber = d.lastOfMonth.dayNumber + 1 := by
  have hm := daysBeforeMonth_succ d.year d.month d.month_mem
  rw [dayNumber_lastOfMonth]
  unfold firstOfNextMonth? at h
  split at h
  · next h₁₂ =>
    obtain ⟨hy, hm', hd⟩ := ofCivil?_eq_some_iff.mp h
    have h₁₃ := daysBeforeMonth_thirteen d.year
    have hs := daysBeforeYear_succ d.year
    rw [h₁₂, show (12 : Int) + 1 = 13 from rfl] at hm
    simp only [dayNumber, lengthOfMonth, hy, hm', hd, h₁₂, daysBeforeMonth_one]
    omega
  · obtain ⟨hy, hm', hd⟩ := ofCivil?_eq_some_iff.mp h
    simp only [dayNumber, lengthOfMonth, hy, hm', hd]
    omega

/-- Weekdays go round with the days. -/
theorem weekday_of_dayNumber {d e : Date} {n : Int} (h : e.dayNumber = d.dayNumber + n) :
    e.weekday = (d.weekday - 1 + n) % 7 + 1 := by
  unfold weekday
  omega

end Date

end Recurrence
