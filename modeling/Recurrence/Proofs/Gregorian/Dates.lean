/-
# The Gregorian calendar without its clock

The searches through a month move a moment together with its time of day.  They could as well
move the bare date: `dates` is the calendar of dates, and away from the leap second that ends a
day the Gregorian calendar runs in step with it (`gregorian_dates`).  So whatever is shown of the
searches on `dates`, where a step is one addition to the day number, holds of the Gregorian
calendar.

The one exception is a leap second after 23:59:59.  A step backwards from it starts a second
later, which is already the next day (`DateTime.date_addDays?`).
-/
import Recurrence.Calendar.Gregorian
import Recurrence.Proofs.Gregorian.Month
import Recurrence.Proofs.Simulation

namespace Recurrence

/-! ## The calendar of dates -/

/-- A date as the result of a calendar step. -/
def arriveOn : Option Date → Except Fault Date
  | some d => .ok d
  | none => .error .invalidDate

/-- The calendar of dates; the fields of the clock read as zero. -/
def dates : Calendar Date where
  endOfMonth d := arriveOn (do Date.ofDayNumber? ((← d.firstOfNextMonth?).dayNumber - 1))
  beginningOfMonth d := .ok d.firstOfMonth
  shiftDays d n := arriveOn (Date.ofDayNumber? (d.dayNumber + n))
  weekday d := .ofNat d.weekday.toNat
  field d
    | .second | .minute | .hour => 0
    | .day => .ofInt d.day
    | .month => .ofInt d.month
    | .weekday => .ofInt d.weekday
    | .year => .ofInt d.year

namespace dates

/-- Every month but the very last ends on its last day. -/
theorem endOfMonth_eq_ok {d : Date} (h : ¬ d.IsLastMonth) :
    dates.endOfMonth d = .ok d.lastOfMonth := by
  rcases hn : d.firstOfNextMonth? with _ | next
  · exact absurd (d.firstOfNextMonth?_eq_none_iff.mp hn) h
  · have he := Date.dayNumber_of_firstOfNextMonth? hn
    have hl : Date.ofDayNumber? (next.dayNumber - 1) = some d.lastOfMonth :=
      Date.ofDayNumber?_eq_some_iff.mpr (by omega)
    simp only [dates, hn, Option.bind_eq_bind, Option.bind_some, hl, arriveOn]

/-- The end of a month is found from the month after it. -/
theorem endOfMonth_eq_error {d : Date} (h : d.IsLastMonth) :
    dates.endOfMonth d = .error .invalidDate := by
  simp only [dates, d.firstOfNextMonth?_eq_none_iff.mpr h, Option.bind_eq_bind, Option.bind_none,
    arriveOn]

/-- A step of days adds to the number of the date. -/
theorem shiftDays_eq_ok {d e : Date} {n : Int} (h : e.dayNumber = d.dayNumber + n) :
    dates.shiftDays d n = .ok e := by
  simp only [dates, ← h, Date.ofDayNumber?_dayNumber, arriveOn]

theorem shiftDays_eq_error {d : Date} {n : Int}
    (h : d.dayNumber + n < Date.firstNumber ∨ Date.lastNumber < d.dayNumber + n) :
    dates.shiftDays d n = .error .invalidDate := by
  simp only [dates, Date.ofDayNumber?_eq_none_iff.mpr h, arriveOn]

end dates

/-! ## Where a step lands -/

/-- The time lies in a leap second after the last second of the day. -/
def TimeOfDay.IsMidnightLeap (t : TimeOfDay) : Prop := t.IsLeap ∧ t.seconds = 86399

instance (t : TimeOfDay) : Decidable t.IsMidnightLeap := inferInstanceAs (Decidable (_ ∧ _))

namespace DateTime

/-- The number of the day to which a step of `n` days leads: one day late if the step goes back
from the leap second that ends a day. -/
def landing (x : DateTime) (n : Int) : Int :=
  x.date.dayNumber + n + if n < 0 ∧ x.time.IsMidnightLeap then 1 else 0

theorem date_withSecondCount? (x : DateTime) (s : Int) :
    (x.withSecondCount? s).map (·.date) = Date.ofDayNumber? (s / 86400) := by
  rw [withSecondCount?]
  cases Date.ofDayNumber? (s / 86400) <;> rfl

/-- **Where a step of whole days lands**, from every moment, leap seconds included. -/
theorem date_addDays? (x : DateTime) (n : Int) :
    (x.addDays? n).map (·.date) = Date.ofDayNumber? (x.landing n) := by
  have hs := x.time.seconds_mem
  by_cases hn : n = 0
  · rw [hn, addDays?_zero, landing, if_neg (fun h => absurd h.1 (by decide)), Int.add_zero,
      Int.add_zero, Date.ofDayNumber?_dayNumber]
    rfl
  · rw [addDays?, addSeconds?, if_neg (by omega : 86400 * n ≠ 0), date_withSecondCount?]
    congr 1
    unfold departure landing secondCount TimeOfDay.IsMidnightLeap
    by_cases hl : n < 0 ∧ x.time.IsLeap
    · -- counting starts a second later, which is the next day only after the last second
      rw [if_pos ⟨by omega, hl.2⟩]
      by_cases hm : x.time.seconds = 86399
      · rw [if_pos ⟨hl.1, hl.2, hm⟩]
        omega
      · rw [if_neg (fun h => hm h.2.2)]
        omega
    · rw [if_neg (fun h => hl ⟨by omega, h.2⟩), if_neg (fun h => hl ⟨h.1, h.2.1⟩)]
      omega

/-- Steps leave leap seconds. -/
theorem not_isLeap_of_addDays? {x y : DateTime} {n : Int} (hn : n ≠ 0)
    (h : x.addDays? n = some y) : ¬ y.time.IsLeap := by
  rw [addDays?, addSeconds?, if_neg (by omega : 86400 * n ≠ 0), withSecondCount?_eq_some_iff] at h
  have hlt := h.2
  unfold TimeOfDay.IsLeap
  simp only [TimeOfDay.withoutLeap] at hlt
  omega

end DateTime

/-! ## In step with the dates -/

namespace Gregorian

/-- A moment and its date are in step, except in the leap second that ends the day. -/
def OnDate (x : DateTime) (d : Date) : Prop := x.date = d ∧ ¬ x.time.IsMidnightLeap

/-- A step away is a step on dates to the day where it lands. -/
theorem shiftDays_of_landing {x : DateTime} {n m : Int} (hn : n ≠ 0)
    (hm : x.landing n = x.date.dayNumber + m) :
    OutcomesAgree OnDate (gregorian.shiftDays x n) (dates.shiftDays x.date m) := by
  have hd := x.date_addDays? n
  rw [hm] at hd
  show OutcomesAgree OnDate (arrive (x.addDays? n)) (arriveOn _)
  rw [← hd]
  rcases hy : x.addDays? n with _ | y
  · rfl
  · exact ⟨rfl, fun hl => DateTime.not_isLeap_of_addDays? hn hy hl.1⟩

/-- Shifts keep a moment and its date in step. -/
theorem shiftDays_agree {x : DateTime} {d : Date} (h : OnDate x d) (n : Int) :
    OutcomesAgree OnDate (gregorian.shiftDays x n) (dates.shiftDays d n) := by
  by_cases hn : n = 0
  · have hstay : dates.shiftDays d 0 = .ok d := dates.shiftDays_eq_ok (Int.add_zero _).symm
    rw [hn, hstay]
    exact h
  · obtain ⟨rfl, hm⟩ := h
    apply shiftDays_of_landing hn
    rw [DateTime.landing, if_neg (fun h => hm h.2), Int.add_zero]

/-- Going back from the leap second that ends a day is going back from the next day. -/
theorem shiftDays_back {x : DateTime} {n : Int} (hx : x.time.IsMidnightLeap) (hn : n < 0) :
    OutcomesAgree OnDate (gregorian.shiftDays x n) (dates.shiftDays x.date (n + 1)) := by
  apply shiftDays_of_landing (by omega)
  rw [DateTime.landing, if_pos ⟨hn, hx⟩, Int.add_assoc]

/-- The end of the month is one day before the first of the next month. -/
theorem endOfMonth_of_next {x : DateTime} {next : Date}
    (hn : x.date.firstOfNextMonth? = some next) :
    gregorian.endOfMonth x = gregorian.shiftDays ⟨next, x.time⟩ (-1) := by
  show arrive (endOfMonth? x) = _
  rw [endOfMonth?, hn]
  rfl

theorem endOfMonth_of_isLastMonth {x : DateTime} (hl : x.date.IsLastMonth) :
    gregorian.endOfMonth x = .error .invalidDate := by
  show arrive (endOfMonth? x) = _
  rw [endOfMonth?, x.date.firstOfNextMonth?_eq_none_iff.mpr hl]
  rfl

/-- The step to the end of the month keeps them in step, because it shifts the first of the next. -/
theorem endOfMonth_agree {x : DateTime} {d : Date} (h : OnDate x d) :
    OutcomesAgree OnDate (gregorian.endOfMonth x) (dates.endOfMonth d) := by
  obtain ⟨rfl, hm⟩ := h
  rcases hn : x.date.firstOfNextMonth? with _ | next
  · have hl := x.date.firstOfNextMonth?_eq_none_iff.mp hn
    rw [endOfMonth_of_isLastMonth hl, dates.endOfMonth_eq_error hl]
    rfl
  · have hs := shiftDays_agree (x := ⟨next, x.time⟩) (d := next) ⟨rfl, hm⟩ (-1)
    rw [endOfMonth_of_next hn]
    simp only [dates, hn]
    exact hs

theorem beginningOfMonth_agree {x : DateTime} {d : Date} (h : OnDate x d) :
    OutcomesAgree OnDate (gregorian.beginningOfMonth x) (dates.beginningOfMonth d) := by
  obtain ⟨rfl, hm⟩ := h
  exact ⟨rfl, hm⟩

/-- **The Gregorian calendar runs in step with its dates** from every moment but the leap second
that ends a day. -/
theorem gregorian_dates : DateSimulation gregorian dates OnDate where
  weekday h := by rw [← h.1]; rfl
  day h := by rw [← h.1]; rfl
  month h := by rw [← h.1]; rfl
  endOfMonth := endOfMonth_agree
  beginningOfMonth := beginningOfMonth_agree
  shiftDays n h := shiftDays_agree h n.toInt

/-- Away from leap seconds every moment is in step with its date. -/
theorem onDate_of_not_isLeap {x : DateTime} (h : ¬ x.time.IsLeap) : OnDate x x.date :=
  ⟨rfl, fun hm => h hm.1⟩

end Gregorian

end Recurrence
