/-
# Four centuries

The Gregorian calendar repeats itself after 400 years: they have 146097 days, which are whole weeks,
and every year of them is as long as its counterpart.  So a date and the date 146097 days later have
the same month, day and weekday (`Date.isPeriodsAfter_iff`), and what a condition means by its day
is the same for both (`Condition.NamesDay.of_isPeriodsAfter`).

A search can fail for one of the two dates alone, where it leaves the years of the calendar.  Such a
fault takes the place of an answer, but it never makes another answer: the two outcomes are
compatible (`Condition.compatible_of_isPeriodsAfter`), and with them the verdicts of every schedule
that accepts all years (`Schedule.repeats_after_four_centuries`).
-/
import Mathlib.Tactic.Common
import Recurrence.Proofs.Gregorian.Occurrences
import Recurrence.Proofs.Gregorian.Outcomes

namespace Recurrence

variable {k : Int}

/-! ## Years -/

/-- Leap years come back after 400 years. -/
theorem isLeapYear_add_iff (year k : Int) : IsLeapYear (year + 400 * k) ↔ IsLeapYear year := by
  unfold IsLeapYear
  omega

/-- So do the lengths of the months. -/
theorem monthLength_add (year k month : Int) :
    monthLength (year + 400 * k) month = monthLength year month := by
  simp only [monthLength, isLeapYear_add_iff]

/-- 400 years have 146097 days, wherever they begin. -/
theorem daysBeforeYear_add (year k : Int) :
    daysBeforeYear (year + 400 * k) = daysBeforeYear year + 146097 * k := by
  unfold daysBeforeYear
  omega

/-- Months begin on the same days of their years. -/
theorem daysBeforeMonth_add (year k month : Int) :
    daysBeforeMonth (year + 400 * k) month = daysBeforeMonth year month := by
  simp only [daysBeforeMonth, isLeapYear_add_iff]

/-! ## Dates -/

namespace Date

variable {d e a b : Date} {w n : Int}

/-- The date `e` has the month and the day of `d`, and stands `k` periods of 400 years after it. -/
structure IsPeriodsAfter (k : Int) (d e : Date) : Prop where
  year : e.year = d.year + 400 * k
  month : e.month = d.month
  day : e.day = d.day

/-- **A period has 146097 days.** -/
theorem isPeriodsAfter_iff : IsPeriodsAfter k d e ↔ e.dayNumber = d.dayNumber + 146097 * k := by
  have hforth : ∀ x : Date, IsPeriodsAfter k d x → x.dayNumber = d.dayNumber + 146097 * k := by
    rintro x ⟨hyear, hmonth, hday⟩
    simp only [dayNumber, hyear, hmonth, hday, daysBeforeYear_add, daysBeforeMonth_add]
    omega
  refine ⟨hforth e, fun h => ?_⟩
  -- the year of `e` follows from its number, and then its counterpart in that year exists
  have hyear : e.year = d.year + 400 * k := by
    have hmem := d.dayOfYear_bounds
    have hlength := daysBeforeYear_succ d.year
    have hstart := daysBeforeYear_add d.year k
    have hend := daysBeforeYear_add (d.year + 1) k
    rw [show d.year + 1 + 400 * k = d.year + 400 * k + 1 by omega] at hend
    rw [← e.yearOfDay_dayNumber, h]
    exact yearOfDay_eq (by omega) (by omega)
  let x : Date := ⟨d.year + 400 * k, d.month, d.day, hyear ▸ e.year_mem, d.month_mem, by
    rw [monthLength_add]
    exact d.day_mem⟩
  have hx : IsPeriodsAfter k d x := ⟨rfl, rfl, rfl⟩
  rwa [dayNumber_injective (h.trans (hforth x hx).symm)]

namespace IsPeriodsAfter

theorem symm (h : IsPeriodsAfter k d e) : IsPeriodsAfter (-k) e d := by
  have hyear := h.year
  exact ⟨by omega, h.month.symm, h.day.symm⟩

theorem dayNumber_eq (h : IsPeriodsAfter k d e) : e.dayNumber = d.dayNumber + 146097 * k :=
  isPeriodsAfter_iff.mp h

/-- The months of counterparts are equally long. -/
theorem lengthOfMonth_eq (h : IsPeriodsAfter k d e) : e.lengthOfMonth = d.lengthOfMonth := by
  rw [lengthOfMonth, h.year, h.month, monthLength_add, lengthOfMonth]

/-- A period has whole weeks. -/
theorem weekday_eq (h : IsPeriodsAfter k d e) : e.weekday = d.weekday := by
  have hnum := h.dayNumber_eq
  unfold weekday
  omega

/-- The first days of their months are counterparts. -/
theorem firstOfMonth (h : IsPeriodsAfter k d e) :
    IsPeriodsAfter k d.firstOfMonth e.firstOfMonth :=
  ⟨h.year, h.month, rfl⟩

/-- Every day of the month has its counterpart. -/
theorem exists_sameMonth (h : IsPeriodsAfter k d e) (ha : SameMonth d a) :
    ∃ b, SameMonth e b ∧ IsPeriodsAfter k a b := by
  obtain ⟨b, hb, hday⟩ := e.exists_day (k := a.day) (by
    rw [h.lengthOfMonth_eq]
    exact ha.day_mem)
  exact ⟨b, hb, by rw [hb.1, h.year, ha.1], by rw [hb.2, h.month, ha.2], hday⟩

/-! ## Days by their place in the month -/

theorem fallsOn_iff (h : IsPeriodsAfter k d e) : e.FallsOn w ↔ d.FallsOn w := by
  rw [FallsOn, h.weekday_eq, FallsOn]

theorem isWorkday_iff (h : IsPeriodsAfter k d e) : e.IsWorkday ↔ d.IsWorkday := by
  rw [IsWorkday, h.weekday_eq, IsWorkday]

/-- Being the last day on a weekday repeats itself. -/
theorem isLastOn_iff (h : IsPeriodsAfter k d e) : e.IsLastOn w ↔ d.IsLastOn w := by
  rw [Date.isLastOn_iff, Date.isLastOn_iff, h.fallsOn_iff, h.lengthOfMonth_eq, h.day]

/-- Being the `n`th one repeats itself, because the first days fall on one weekday. -/
theorem isNthOn_iff (h : IsPeriodsAfter k d e) : e.IsNthOn w n ↔ d.IsNthOn w n := by
  rw [isNthOn_iff_occurrence (SameMonth.refl e), isNthOn_iff_occurrence (SameMonth.refl d),
    occurrence, h.firstOfMonth.weekday_eq, h.day, occurrence]

theorem isLastWorkday (h : IsPeriodsAfter k d e) (hd : d.IsLastWorkday) : e.IsLastWorkday := by
  refine ⟨h.isWorkday_iff.mpr hd.1, ?_⟩
  intro y hy hwork
  obtain ⟨x, hx, hxy⟩ := h.symm.exists_sameMonth hy
  have hle := hd.2 x hx (hxy.isWorkday_iff.mpr hwork)
  rwa [hxy.day, ← h.day] at hle

/-- Nearness to a working day is kept, because every day of the month has its counterpart. -/
theorem isNearestWorkday (h : IsPeriodsAfter k d e) (hab : IsPeriodsAfter k a b)
    (hb : SameMonth e b) (ha : IsNearestWorkday d a) : IsNearestWorkday e b := by
  refine ⟨hb, hab.isWorkday_iff.mpr ha.2.1, ?_⟩
  intro y hy hwork hne
  obtain ⟨x, hx, hxy⟩ := h.symm.exists_sameMonth hy
  have hne' : x ≠ a := by
    rintro rfl
    exact hne ((hb.symm.trans hy).eq_of_day_eq (hxy.day.symm.trans hab.day.symm))
  have hlt := ha.2.2 x hx (hxy.isWorkday_iff.mpr hwork) hne'
  rwa [hxy.day, ← hab.day, ← h.day] at hlt

end IsPeriodsAfter

end Date

/-! ## Conditions -/

namespace Condition

open Date (IsPeriodsAfter)

variable {d e : Date} {f : Field} {c : Condition}

/-- The anchor of a month that stands a number of periods later is the counterpart of the anchor,
if the calendar has it. -/
theorem exists_anchor {a : Date} {n : Int} (h : IsPeriodsAfter k d e)
    (hn : n ≤ 0 → Date.firstNumber ≤ e.firstOfMonth.dayNumber + (n - 1))
    (ha : a.dayNumber = d.firstOfMonth.dayNumber + (min n d.lengthOfMonth - 1)) :
    ∃ b, IsPeriodsAfter k a b ∧
      b.dayNumber = e.firstOfMonth.dayNumber + (min n e.lengthOfMonth - 1) := by
  have hlen := e.lengthOfMonth_bounds
  have hfirst := e.dayNumber_firstOfMonth
  have hlast := e.dayNumber_lastOfMonth
  have hfirstBounds := e.firstOfMonth.dayNumber_bounds
  have hlastBounds := e.lastOfMonth.dayNumber_bounds
  obtain ⟨b, hb⟩ := Date.exists_dayNumber_eq
    (n := e.firstOfMonth.dayNumber + (min n e.lengthOfMonth - 1)) (by omega)
  refine ⟨b, Date.isPeriodsAfter_iff.mpr ?_, hb⟩
  have hnum := h.firstOfMonth.dayNumber_eq
  rw [hb, ha, h.lengthOfMonth_eq]
  omega

/-- **What a condition means repeats itself**, where the search for its day stays in the calendar. -/
theorem NamesDay.of_isPeriodsAfter (h : IsPeriodsAfter k d e) (he : ¬ c.FailsOn e f)
    (hc : c.NamesDay d f) : c.NamesDay e f := by
  cases c with
  | any | number | range | step => exact hc
  | lastDay => exact ⟨hc.1, by rw [h.day, h.lengthOfMonth_eq, hc.2]⟩
  | lastWeekday w => exact ⟨hc.1, h.isLastOn_iff.mpr hc.2⟩
  | nearestWorkday anchor =>
      cases anchor with
      | lastDay => exact ⟨hc.1, h.isLastWorkday hc.2⟩
      | day n =>
          obtain ⟨hf, a, x, ha, hx, hday⟩ := hc
          obtain ⟨b, hab, hb⟩ := exists_anchor h (n := n.toInt)
            (fun hn => Int.not_lt.mp fun hlt => he ⟨hf, Or.inr ⟨hn, hlt⟩⟩) ha
          obtain ⟨y, hy, hxy⟩ := hab.exists_sameMonth hx.1
          exact ⟨hf, b, y, hb, hab.isNearestWorkday hxy hy hx, by rw [hxy.day, h.day, hday]⟩
  | nthWeekday w n =>
      obtain ⟨hf, hday⟩ := hc
      by_cases hz : n = 0
      · rw [if_pos hz] at hday
        obtain ⟨x, hx, hxd⟩ := hday
        -- the day before the month is the counterpart of the day before the other month
        have hfirst : ¬ e.IsFirstMonth := fun hfirst => he ⟨hf, by rwa [if_pos hz]⟩
        obtain ⟨y, hy, -⟩ := Date.exists_dayBefore hfirst
        have hnum := h.firstOfMonth.dayNumber_eq
        have hxy : IsPeriodsAfter k x y := Date.isPeriodsAfter_iff.mpr (by omega)
        exact ⟨hf, by rw [if_pos hz]; exact ⟨y, hy, by rw [hxy.day, h.day, hxd]⟩⟩
      · rw [if_neg hz] at hday
        exact ⟨hf, by rw [if_neg hz]; exact h.isNthOn_iff.mpr hday⟩

theorem namesDay_iff (h : IsPeriodsAfter k d e) (hd : ¬ c.FailsOn d f) (he : ¬ c.FailsOn e f) :
    c.NamesDay e f ↔ c.NamesDay d f :=
  ⟨NamesDay.of_isPeriodsAfter h.symm hd, NamesDay.of_isPeriodsAfter h he⟩

/-- A candidate value is accepted on both dates or on neither, where neither search fails. -/
theorem accepts_iff (h : IsPeriodsAfter k d e) (hd : ¬ c.FailsOn d f) (he : ¬ c.FailsOn e f)
    (v : Int) : c.Accepts e f v ↔ c.Accepts d f v := by
  cases c with
  | any | number | range => exact Iff.rfl
  | step base divisor => cases base <;> exact Iff.rfl
  | lastDay =>
      change f = .day ∧ v = e.lengthOfMonth ↔ f = .day ∧ v = d.lengthOfMonth
      rw [h.lengthOfMonth_eq]
  | nearestWorkday | lastWeekday | nthWeekday => exact namesDay_iff h hd he

/-- **A condition does not contradict itself** a number of periods later. -/
theorem compatible_of_isPeriodsAfter {x y : DateTime} (hx : ¬ x.time.IsLeap)
    (hy : ¬ y.time.IsLeap) (h : IsPeriodsAfter k x.date y.date) (f : Field) (v : Int32)
    (c : Condition) : Compatible (c.holds gregorian x f v) (c.holds gregorian y f v) :=
  (c.settles hx f v).compatible (c.settles hy f v) fun hd he => (accepts_iff h hd he v.toInt).symm

end Condition

/-! ## Verdicts -/

namespace Gregorian

open Date (IsPeriodsAfter)

variable {x y : DateTime} {f : Field}

/-- Moments a number of periods apart with one time of day differ in the year alone. -/
theorem field_eq_of_isPeriodsAfter (h : IsPeriodsAfter k x.date y.date) (ht : y.time = x.time)
    (hf : f ≠ .year) : gregorian.field y f = gregorian.field x f := by
  cases f with
  | year => exact absurd rfl hf
  | second | minute | hour => simp only [gregorian, field, ht]
  | day => simp only [gregorian, field, h.day]
  | month => simp only [gregorian, field, h.month]
  | weekday => simp only [gregorian, field, h.weekday_eq]

/-- So every field but the year has the same values to test. -/
theorem candidates_eq_of_isPeriodsAfter (h : IsPeriodsAfter k x.date y.date)
    (ht : y.time = x.time) (hf : f ≠ .year) :
    gregorian.candidates y f = gregorian.candidates x f := by
  have hw : gregorian.weekday y = gregorian.weekday x := by
    simp only [gregorian, weekday, h.weekday_eq]
  rw [Calendar.candidates, hw, field_eq_of_isPeriodsAfter h ht hf, Calendar.candidates]

end Gregorian

namespace Schedule

open Date (IsPeriodsAfter)

variable {s : Schedule} {x y : DateTime}

/-- A field on which all years are accepted is met, and the others do not see the year. -/
theorem compatible_meets (hyear : .any ∈ s.year) (hx : ¬ x.time.IsLeap)
    (h : IsPeriodsAfter k x.date y.date) (ht : y.time = x.time) (f : Field) :
    Compatible (s.meets gregorian x f) (s.meets gregorian y f) := by
  by_cases hf : f = .year
  · subst hf
    have hmet : ∀ z, s.meets gregorian z .year = .ok true :=
      fun z => Condition.anyHolds_of_mem gregorian z .year hyear
    rw [hmet, hmet]
    exact Compatible.refl _
  · have hy : ¬ y.time.IsLeap := by rwa [ht]
    exact Compatible.anyHolds (Gregorian.candidates_eq_of_isPeriodsAfter h ht hf).symm
      (Condition.compatible_of_isPeriodsAfter hx hy h f) _

/-- **Schedules repeat themselves after four centuries.**  Let a schedule accept all years, and let
a moment away from leap seconds have a counterpart any number of periods of 146097 days later or
earlier.  The counterpart has the same month, day, weekday and time in another year; and if both
moments get an answer, they get the same one for the same reason. -/
theorem repeats_after_four_centuries (hyear : .any ∈ s.year) (hx : ¬ x.time.IsLeap)
    (h : x.addDays? (146097 * k) = some y) :
    (∀ b b', (s.evaluate gregorian x).result = .ok b → (s.evaluate gregorian y).result = .ok b' →
      b = b' ∧ (s.evaluate gregorian x).events = (s.evaluate gregorian y).events) ∧
    y.date.year = x.date.year + 400 * k ∧ y.date.month = x.date.month ∧
      y.date.day = x.date.day ∧ y.date.weekday = x.date.weekday ∧ y.time = x.time := by
  obtain ⟨ht, hnum⟩ := (DateTime.addDays?_eq_some_iff hx).mp h
  have hafter : IsPeriodsAfter k x.date y.date := Date.isPeriodsAfter_iff.mpr hnum
  refine ⟨?_, hafter.year, hafter.month, hafter.day, hafter.weekday_eq, ht⟩
  intro b b' hb hb'
  have hsame := Compatible.evaluate (compatible_meets hyear hx hafter ht) hb hb'
  rw [← hsame] at hb' ⊢
  exact ⟨Except.ok.inj (hb.symm.trans hb'), rfl⟩

/-- The fifth Thursday of February is the last working day of its month in 2024, and it was in the
year -376. -/
theorem repeats_after_four_centuries_leap_days :
    let s : Schedule := { day := [.nearestWorkday (.day 31)], weekday := [.nthWeekday 4 5],
                          year := [.number 1999, .any] }
    let x : DateTime := ⟨⟨2024, 2, 29, by decide, by decide, by decide⟩,
      ⟨43200, 0, by decide, by decide⟩⟩
    let y : DateTime := ⟨⟨-376, 2, 29, by decide, by decide, by decide⟩,
      ⟨43200, 0, by decide, by decide⟩⟩
    x.addDays? (146097 * -6) = some y ∧ (s.evaluate gregorian x).result = .ok true ∧
      (s.evaluate gregorian y).result = .ok true ∧ y.date.weekday = x.date.weekday := by
  intro s x y
  have hmoved : x.addDays? (146097 * -6) = some y := by decide +kernel
  have hyes : (s.evaluate gregorian x).result = .ok true := by decide +kernel
  obtain ⟨b, hb⟩ : ∃ b, (s.evaluate gregorian y).result = .ok b := ⟨true, by decide +kernel⟩
  obtain ⟨hsame, -, -, -, hweekday, -⟩ :=
    repeats_after_four_centuries (s := s) (by decide) (by decide) hmoved
  rw [← (hsame true b hyes hb).1] at hb
  exact ⟨hmoved, hyes, hb, hweekday⟩

end Schedule

end Recurrence
