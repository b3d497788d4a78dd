/-
# Weekdays of a month in closed form

Weekdays come round every seven days, so the days of a month on one weekday follow each other at
that distance, from a first one that the weekday of the first of the month gives.  The `n`th of them
is `Date.occurrence`, and `Date.isNthOn_iff_occurrence` shows it to be the day that counting finds.

With that the search for the `n`th day on a weekday has a closed form, faults included
(`Date.nthOutcome`, `dates.nthWeekday_outcome`).  The number of the last such day is
`Date.lastNumberOn`, four or five, and there the search back from the end of the month meets the one
from its beginning.
-/
import Recurrence.Proofs.Gregorian.Searches

namespace Recurrence

namespace Date

variable {d e : Date} {w n : Int} {k : Nat}

/-! ## Counting by sevens -/

/-- The number of the `n`th day on the weekday written `w`, beyond the length of the month if there
are fewer. -/
def occurrence (d : Date) (w n : Int) : Int :=
  7 * (n - 1) + 1 + (w - d.firstOfMonth.weekday) % 7

/-- The days on a weekday are those at multiples of seven from the first. -/
theorem fallsOn_daysLater_iff (hw : 0 ≤ w ∧ w ≤ 7) (hk : (k : Int) < d.lengthOfMonth) :
    (d.firstOfMonth.daysLater k).FallsOn w ↔ (k : Int) % 7 = (w - d.firstOfMonth.weekday) % 7 := by
  have h := dates.daysLater_firstOfMonth d (i := k) (by omega)
  have hnum := (d.sameMonth_firstOfMonth.symm.trans h.1).dayNumber_eq
  have hfirst : d.firstOfMonth.day = 1 := rfl
  rw [FallsOn, and_iff_right hw, weekday_of_dayNumber hnum]
  omega

/-- How many of the first days fall on a weekday follows from the weekday of the very first. -/
theorem weekdayCount_eq (hw : 0 ≤ w ∧ w ≤ 7) (hk : (k : Int) ≤ d.lengthOfMonth) :
    (d.weekdayCount w k : Int) = (k + 6 - (w - d.firstOfMonth.weekday) % 7) / 7 := by
  induction k with
  | zero =>
      rw [show d.weekdayCount w 0 = 0 from rfl]
      omega
  | succ k ih =>
      have hprevious := ih (by omega)
      have hfalls := fallsOn_daysLater_iff (d := d) hw (k := k) (by omega)
      rw [weekdayCount_succ]
      split
      · next hday =>
        have hmod := hfalls.mp hday
        omega
      · next hday =>
        have hmod : ¬ (k : Int) % 7 = (w - d.firstOfMonth.weekday) % 7 :=
          fun h => hday (hfalls.mpr h)
        omega

/-- **The `n`th day on a weekday**, found by counting, is the one at its multiple of seven. -/
theorem isNthOn_iff_occurrence (he : SameMonth d e) :
    e.IsNthOn w n ↔ (0 ≤ w ∧ w ≤ 7) ∧ e.day = d.occurrence w n := by
  have hmem := he.day_mem
  by_cases hw : 0 ≤ w ∧ w ≤ 7
  · obtain ⟨k, hk⟩ : ∃ k : Nat, (k : Int) + 1 = e.day := ⟨(e.day - 1).toNat, by omega⟩
    have hself := dates.daysLater_day_sub_one he
    rw [← hk, Int.add_sub_cancel] at hself
    have hfalls := fallsOn_daysLater_iff (d := d) hw (k := k) (by omega)
    have hcount := weekdayCount_eq (d := d) hw (k := k + 1) (by omega)
    rw [hself] at hfalls
    rw [IsNthOn, hfalls, he.weekdayCount_eq, ← hk, show ((k : Int) + 1).toNat = k + 1 by omega,
      hcount, and_iff_right hw, occurrence]
    omega
  · exact iff_of_false (fun h => hw h.1.1) (fun h => hw h.1)

/-- A month has an `n`th day on a weekday exactly if the place for it lies in the month. -/
theorem exists_isNthOn_iff :
    (∃ e, SameMonth d e ∧ e.IsNthOn w n) ↔
      (0 ≤ w ∧ w ≤ 7) ∧ 1 ≤ n ∧ d.occurrence w n ≤ d.lengthOfMonth := by
  constructor
  · rintro ⟨e, he, hn⟩
    have hmem := he.day_mem
    obtain ⟨hw, hday⟩ := (isNthOn_iff_occurrence he).mp hn
    refine ⟨hw, ?_, by omega⟩
    unfold occurrence at hday
    omega
  · rintro ⟨hw, hn, hle⟩
    obtain ⟨e, he, hday⟩ := d.exists_day (k := d.occurrence w n) ⟨by unfold occurrence; omega, hle⟩
    exact ⟨e, he, (isNthOn_iff_occurrence he).mpr ⟨hw, hday⟩⟩

/-- The number of the last day on the weekday written `w`, which is how many of them the month
has. -/
def lastNumberOn (d : Date) (w : Int) : Int :=
  (d.lengthOfMonth + 6 - (w - d.firstOfMonth.weekday) % 7) / 7

theorem lastNumberOn_eq (d : Date) (w : Int) : d.lastNumberOn w = 4 ∨ d.lastNumberOn w = 5 := by
  have hlen := d.lengthOfMonth_bounds
  unfold lastNumberOn
  omega

theorem occurrence_le_iff : d.occurrence w n ≤ d.lengthOfMonth ↔ n ≤ d.lastNumberOn w := by
  unfold occurrence lastNumberOn
  omega

/-- The day with the last number is the last one on the weekday, because a week later the month is
over. -/
theorem exists_isLastOn_isNthOn (d : Date) (hw : 0 ≤ w ∧ w ≤ 7) :
    ∃ e, SameMonth d e ∧ e.IsLastOn w ∧ e.IsNthOn w (d.lastNumberOn w) := by
  have hnumber := d.lastNumberOn_eq w
  obtain ⟨e, he, hn⟩ := exists_isNthOn_iff.mpr
    ⟨hw, by omega, occurrence_le_iff.mpr (Int.le_refl (d.lastNumberOn w))⟩
  have hday := ((isNthOn_iff_occurrence he).mp hn).2
  have hover : ¬ d.occurrence w (d.lastNumberOn w + 1) ≤ d.lengthOfMonth :=
    fun h => absurd (occurrence_le_iff.mp h) (by omega)
  have hlen := he.lengthOfMonth_eq
  refine ⟨e, he, isLastOn_iff.mpr ⟨hn.1, ?_⟩, hn⟩
  unfold occurrence at hday hover
  omega

/-! ## The month before -/

/-- The number of days of the month before. -/
def lengthOfPreviousMonth (d : Date) : Int :=
  if d.month = 1 then monthLength (d.year - 1) 12 else monthLength d.year (d.month - 1)

/-- Every month but the first comes after another. -/
theorem exists_previousMonth (hd : ¬ d.IsFirstMonth) :
    ∃ e : Date, e.firstOfNextMonth? = some d.firstOfMonth ∧
      e.lengthOfMonth = d.lengthOfPreviousMonth := by
  have hy := d.year_mem
  have hm := d.month_mem
  by_cases h1 : d.month = 1
  · have hy' : firstYear < d.year := by
      have hne : d.year ≠ firstYear := fun h => hd ⟨h, h1⟩
      omega
    have hlen := monthLength_bounds (d.year - 1) 12
    refine ⟨⟨d.year - 1, 12, 1, by omega, by omega, by omega⟩, ?_, ?_⟩
    · rw [firstOfNextMonth?, if_pos rfl, ofCivil?_eq_some_iff]
      exact ⟨(Int.sub_add_cancel _ _).symm, h1, rfl⟩
    · rw [lengthOfPreviousMonth, if_pos h1]
      rfl
  · have hlen := monthLength_bounds d.year (d.month - 1)
    refine ⟨⟨d.year, d.month - 1, 1, hy, by omega, by omega⟩, ?_, ?_⟩
    · rw [firstOfNextMonth?, if_neg (show d.month - 1 ≠ 12 by omega), ofCivil?_eq_some_iff]
      exact ⟨rfl, (Int.sub_add_cancel _ _).symm, rfl⟩
    · rw [lengthOfPreviousMonth, if_neg h1]
      rfl

/-- The day before a month is the last of the month before. -/
theorem exists_dayBefore (hd : ¬ d.IsFirstMonth) :
    ∃ e : Date, e.dayNumber = d.firstOfMonth.dayNumber - 1 ∧ e.day = d.lengthOfPreviousMonth := by
  obtain ⟨e, hnext, hlen⟩ := exists_previousMonth hd
  have hnum := dayNumber_of_firstOfNextMonth? hnext
  exact ⟨e.lastOfMonth, by omega, hlen⟩

/-! ## The search in closed form -/

/-- The outcome of the search for the `n`th day on the weekday written `w` in the month of `d`. -/
def nthOutcome (d : Date) (w n : Int) : Except Fault (Option Int) :=
  if n = 0 then
    if d.IsFirstMonth then .error .invalidDate else .ok (some d.lengthOfPreviousMonth)
  else if (0 ≤ w ∧ w ≤ 7) ∧ 1 ≤ n ∧ d.occurrence w n ≤ d.lengthOfMonth then
    .ok (some (d.occurrence w n))
  else if d.IsLastMonth then .error .invalidDate
  else .ok none

end Date

namespace dates

open Date (SameMonth)

variable {d e : Date} {w nth : Int32}

/-- The search starts from the first of the month, so the day in the month is not seen. -/
theorem nthWeekday_eq_of_sameMonth (h : SameMonth d e) (w nth : Int32) :
    dates.nthWeekday e w nth = dates.nthWeekday d w nth := by
  have hstart : dates.beginningOfMonth e = dates.beginningOfMonth d :=
    congrArg Except.ok h.firstOfMonth_eq
  rw [Calendar.nthWeekday, Calendar.nthWeekday, hstart]

/-- **The search by number in closed form**, its day as a whole number. -/
theorem nthWeekday_outcome (d : Date) (w nth : Int32) :
    (dates.nthWeekday d w nth).map (Option.map Int32.toInt) = d.nthOutcome w.toInt nth.toInt := by
  have hzero : nth.toInt = 0 ↔ nth = 0 := by rw [← Int32.toInt_inj, Int32.toInt_zero]
  unfold Date.nthOutcome
  by_cases hz : nth = 0
  · rw [if_pos (hzero.mpr hz), hz]
    by_cases hf : d.IsFirstMonth
    · rw [if_pos hf, nthWeekday_zero_of_isFirstMonth hf]
      rfl
    · obtain ⟨e, he, hday⟩ := Date.exists_dayBefore hf
      rw [if_neg hf, nthWeekday_zero he, ← hday, ← toInt_day e]
      rfl
  · rw [if_neg (fun h => hz (hzero.mp h))]
    by_cases hex : ∃ e, SameMonth d e ∧ e.IsNthOn w.toInt nth.toInt
    · obtain ⟨e, he, hn⟩ := hex
      have hday := ((Date.isNthOn_iff_occurrence he).mp hn).2
      rw [if_pos (Date.exists_isNthOn_iff.mp ⟨e, he, hn⟩), nthWeekday_of_isNthOn he hn, ← hday,
        ← toInt_day e]
      rfl
    · rw [if_neg (fun h => hex (Date.exists_isNthOn_iff.mpr h)),
        nthWeekday_of_not_exists hz fun e he hn => hex ⟨e, he, hn⟩]
      split <;> rfl

/-- The search finds the `n`th day and no other. -/
theorem nthWeekday_eq_some_iff (he : SameMonth d e) (hz : nth ≠ 0) :
    dates.nthWeekday d w nth = .ok (some (dates.day e)) ↔ e.IsNthOn w.toInt nth.toInt := by
  constructor
  · intro h
    by_cases hex : ∃ x, SameMonth d x ∧ x.IsNthOn w.toInt nth.toInt
    · obtain ⟨x, hx, hn⟩ := hex
      have hsame := (nthWeekday_of_isNthOn hx hn).symm.trans h
      have hday := day_eq_iff.mp (Option.some.inj (Except.ok.inj hsame))
      rwa [← (he.symm.trans hx).eq_of_day_eq hday]
    · rw [nthWeekday_of_not_exists hz fun x hx hn => hex ⟨x, hx, hn⟩] at h
      split at h <;> cases h
  · exact nthWeekday_of_isNthOn he

/-- Numbers beyond the last name no day, and neither do numbers of no weekday. -/
theorem nthWeekday_eq_none (hd : ¬ d.IsLastMonth) (hz : nth ≠ 0)
    (h : 0 ≤ w.toInt ∧ w.toInt ≤ 7 → d.lastNumberOn w.toInt < nth.toInt) :
    dates.nthWeekday d w nth = .ok none := by
  rw [nthWeekday_of_not_exists hz, if_neg hd]
  intro e he hn
  obtain ⟨hw, -, hle⟩ := Date.exists_isNthOn_iff.mp ⟨e, he, hn⟩
  have hnumber := Date.occurrence_le_iff.mp hle
  have hbeyond := h hw
  omega

end dates

namespace Gregorian

open Date (SameMonth)

variable {x y : DateTime}

/-- **The search for the `n`th day on a weekday in closed form.**  Away from leap seconds the search
gives the day at its multiple of seven if the month has it, the length of the month before for the
number zero, and no day otherwise; it fails where a missing day is sought in the very last month and
where the number zero is asked for in the very first.  So the outcome is one for all moments of a
month. -/
theorem nthWeekday_closed_form (hx : ¬ x.time.IsLeap) (w nth : Int32) :
    (gregorian.nthWeekday x w nth).map (Option.map Int32.toInt)
        = x.date.nthOutcome w.toInt nth.toInt ∧
      ∀ y : DateTime, ¬ y.time.IsLeap → y.date.year = x.date.year ∧ y.date.month = x.date.month →
        gregorian.nthWeekday y w nth = gregorian.nthWeekday x w nth := by
  rw [gregorian_dates.nthWeekday_eq (onDate_of_not_isLeap hx)]
  refine ⟨dates.nthWeekday_outcome x.date w nth, ?_⟩
  intro y hy hsame
  rw [gregorian_dates.nthWeekday_eq (onDate_of_not_isLeap hy)]
  exact dates.nthWeekday_eq_of_sameMonth hsame w nth

/-- February of 2024 had a fifth Thursday, its last day, and all its moments find it. -/
theorem nthWeekday_closed_form_leap_february :
    let x : DateTime := ⟨⟨2024, 2, 1, by decide, by decide, by decide⟩,
      ⟨43200, 0, by decide, by decide⟩⟩
    let y : DateTime := ⟨⟨2024, 2, 29, by decide, by decide, by decide⟩,
      ⟨86399, 999999999, by decide, by decide⟩⟩
    (gregorian.nthWeekday x 4 5).map (Option.map Int32.toInt) = .ok (some 29) ∧
      gregorian.nthWeekday y 4 5 = gregorian.nthWeekday x 4 5 := by
  intro x y
  obtain ⟨hoccurrence, hmonth⟩ := nthWeekday_closed_form (x := x) (by decide) 4 5
  exact ⟨hoccurrence, hmonth y (by decide) ⟨rfl, rfl⟩⟩

/-! ## Both searches -/

/-- The date `e` is the last day on the weekday written `w` in the month of `x` for both searches:
the one back from the end of the month, and the one by number with the number `n`. -/
structure IsLastOccurrence (x : DateTime) (w n : Int32) (e : Date) : Prop where
  sameMonth : SameMonth x.date e
  fallsOn : e.FallsOn w.toInt
  lastWeek : x.date.lengthOfMonth - 7 < e.day ∧ e.day ≤ x.date.lengthOfMonth
  lastWeekday : gregorian.lastWeekday x w = .ok (some (.ofInt e.day))
  number : n = 4 ∨ n = 5
  /-- The number is the only one that leads to the day and whose successor leads to none. -/
  number_iff : ∀ m, (gregorian.nthWeekday x w m = .ok (some (.ofInt e.day)) ∧
    gregorian.nthWeekday x w (m + 1) = .ok none) ↔ m = n
  beyond : ∀ m, n < m → gregorian.nthWeekday x w m = .ok none
  holds_eq : ∀ v, (Condition.lastWeekday w).holds gregorian x .weekday v
    = (Condition.nthWeekday w n).holds gregorian x .weekday v

/-- Every weekday has a first day in the month. -/
theorem nthWeekday_one_ne_none (hx : ¬ x.time.IsLeap) {w : Int32}
    (hw : 0 ≤ w.toInt ∧ w.toInt ≤ 7) : gregorian.nthWeekday x w 1 ≠ .ok none := by
  have hnumber := x.date.lastNumberOn_eq w.toInt
  have hle : x.date.occurrence w.toInt 1 ≤ x.date.lengthOfMonth :=
    Date.occurrence_le_iff.mpr (by omega)
  obtain ⟨e, he, hn⟩ := Date.exists_isNthOn_iff.mpr ⟨hw, Int.le_refl 1, hle⟩
  have hfirst : dates.nthWeekday x.date w 1 = .ok (some (dates.day e)) :=
    dates.nthWeekday_of_isNthOn he hn
  rw [gregorian_dates.nthWeekday_eq (onDate_of_not_isLeap hx), hfirst]
  nofun

theorem exists_isLastOccurrence (hx : ¬ x.time.IsLeap) (hl : ¬ x.date.IsLastMonth) {w : Int32}
    (hw : 0 ≤ w.toInt ∧ w.toInt ≤ 7) : ∃ n e, IsLastOccurrence x w n e := by
  obtain ⟨e, he, hlast, hnth⟩ := x.date.exists_isLastOn_isNthOn hw
  obtain ⟨n, hn, hcases⟩ :
      ∃ n : Int32, n.toInt = x.date.lastNumberOn w.toInt ∧ (n = 4 ∨ n = 5) := by
    rcases x.date.lastNumberOn_eq w.toInt with h | h
    · exact ⟨4, h.symm, Or.inl rfl⟩
    · exact ⟨5, h.symm, Or.inr rfl⟩
  have hsucc : n ≠ 0 ∧ n < n + 1 := by
    rcases hcases with rfl | rfl
    · decide
    · decide
  have hback : gregorian.lastWeekday x w = .ok (some (.ofInt e.day)) := by
    rw [gregorian_dates.lastWeekday_eq (onDate_of_not_isLeap hx)]
    exact dates.lastWeekday_of_isLastOn hl he hlast
  have hfound : ∀ m, m ≠ 0 → (gregorian.nthWeekday x w m = .ok (some (.ofInt e.day)) ↔ m = n) := by
    intro m hm
    rw [gregorian_dates.nthWeekday_eq (onDate_of_not_isLeap hx), ← Int32.toInt_inj, hn, ← hnth.2]
    exact (dates.nthWeekday_eq_some_iff he hm).trans ((and_iff_right hnth.1).trans eq_comm)
  have hbeyond : ∀ m, n < m → gregorian.nthWeekday x w m = .ok none := by
    intro m hm
    rw [gregorian_dates.nthWeekday_eq (onDate_of_not_isLeap hx)]
    have hlt := Int32.lt_iff_toInt_lt.mp hm
    have hnumber := x.date.lastNumberOn_eq w.toInt
    refine dates.nthWeekday_eq_none hl ?_ fun _ => by omega
    rintro rfl
    rw [Int32.toInt_zero] at hlt
    omega
  refine ⟨n, e, ?_⟩
  constructor
  case sameMonth => exact he
  case fallsOn => exact hlast.1
  case lastWeek =>
    have hlen := he.lengthOfMonth_eq
    have hweek := (Date.isLastOn_iff.mp hlast).2
    exact ⟨by omega, he.day_mem.2⟩
  case lastWeekday => exact hback
  case number => exact hcases
  case number_iff =>
    intro m
    constructor
    · rintro ⟨hday, hnone⟩
      refine (hfound m ?_).mp hday
      -- the number zero may lead to an equal day of the month before, but a first day follows it
      rintro rfl
      exact nthWeekday_one_ne_none hx hw hnone
    · rintro rfl
      exact ⟨(hfound m hsucc.1).mpr rfl, hbeyond (m + 1) hsucc.2⟩
  case beyond => exact hbeyond
  case holds_eq =>
    intro v
    rw [Condition.holds, Condition.holds, if_pos rfl, if_pos rfl, hback,
      (hfound n hsucc.1).mpr rfl]

/-- **The last day on a weekday is the one with the last number.**  Away from leap seconds and
outside the very last month, both searches meet on the last day of the month on a weekday, and
conditions on either agree.  For no weekday neither search finds a day; in the very first month the
one back from the end leaves the calendar. -/
theorem lastWeekday_is_last_occurrence (hx : ¬ x.time.IsLeap) (hl : ¬ x.date.IsLastMonth)
    (w : Int32) :
    (0 ≤ w ∧ w ≤ 7 → ∃ n e, IsLastOccurrence x w n e) ∧
    (¬ (0 ≤ w ∧ w ≤ 7) →
      gregorian.lastWeekday x w = (if x.date.IsFirstMonth then .error .invalidDate else .ok none) ∧
        ∀ m, 1 ≤ m → gregorian.nthWeekday x w m = .ok none) := by
  have hw : 0 ≤ w ∧ w ≤ 7 ↔ 0 ≤ w.toInt ∧ w.toInt ≤ 7 := by
    rw [Int32.le_iff_toInt_le, Int32.le_iff_toInt_le]
    exact Iff.rfl
  rw [hw]
  refine ⟨exists_isLastOccurrence hx hl, fun hno => ⟨?_, fun m hm => ?_⟩⟩
  · rw [gregorian_dates.lastWeekday_eq (onDate_of_not_isLeap hx)]
    exact dates.lastWeekday_of_not_weekday hl hno
  · rw [gregorian_dates.nthWeekday_eq (onDate_of_not_isLeap hx)]
    refine dates.nthWeekday_eq_none hl ?_ fun h => absurd h hno
    rintro rfl
    exact absurd hm (by decide)

/-- The last Sunday of June 2024 was the 30th for both searches, and in the very first month a
search back for the eighth weekday fails. -/
theorem lastWeekday_is_last_occurrence_june :
    let june : DateTime := ⟨⟨2024, 6, 10, by decide, by decide, by decide⟩,
      ⟨43200, 0, by decide, by decide⟩⟩
    let first : DateTime := ⟨⟨-262143, 1, 20, by decide, by decide, by decide⟩,
      ⟨0, 0, by decide, by decide⟩⟩
    (∃ n e, IsLastOccurrence june 0 n e ∧ e.day = 30) ∧
      gregorian.lastWeekday first 8 = .error .invalidDate := by
  intro june first
  constructor
  · obtain ⟨n, e, h⟩ := (lastWeekday_is_last_occurrence (x := june) (by decide) (by decide) 0).1
      (by decide)
    have hjune : june.date.dayNumber = 739047 := by decide
    have hnum : e.dayNumber = june.date.dayNumber + (e.day - 10) := h.sameMonth.dayNumber_eq
    have hsunday : e.dayNumber % 7 = 0 := (Date.fallsOn_iff.mp h.fallsOn).2
    have hweek : 30 - 7 < e.day ∧ e.day ≤ 30 := h.lastWeek
    exact ⟨n, e, h, by omega⟩
  · exact ((lastWeekday_is_last_occurrence (x := first) (by decide) (by decide) 8).2
      (by decide)).1.trans (if_pos ⟨rfl, rfl⟩)

end Gregorian

end Recurrence
