/-
# Moments of local time

A moment is a date with a time of day.  Its `secondCount` numbers the seconds through, so that
arithmetic on moments is arithmetic on whole numbers: `withSecondCount?` moves a moment to
another second, `addSeconds?` and `addDays?` count from the moment's own.

Leap seconds are not numbered.  A step forwards leaves a leap second at its beginning and a step
backwards at its end, so counting back starts one second later.
-/
import Recurrence.Moment.DayNumber
import Recurrence.Moment.TimeOfDay

namespace Recurrence

/-- A moment of local time. -/
@[ext] structure DateTime where
  date : Date
  time : TimeOfDay
  deriving DecidableEq, Repr

namespace DateTime

/-- The moment with the given numbers on calendar and clock, if there is one. -/
def ofFields? (year month day hour minute second nanosecond : Int) : Option DateTime := do
  return ⟨← Date.ofCivil? year month day, ← TimeOfDay.ofClock? hour minute second nanosecond⟩

/-! ## Numbered seconds -/

/-- The number of the moment's second. -/
def secondCount (x : DateTime) : Int := 86400 * x.date.dayNumber + x.time.seconds

/-- The moment with the same nanoseconds in the second with a given number. -/
def withSecondCount? (x : DateTime) (s : Int) : Option DateTime := do
  return ⟨← Date.ofDayNumber? (s / 86400),
    ⟨s % 86400, x.time.nanosecond, by omega, x.time.nanosecond_mem⟩⟩

/-- A moment is found by the number of its second, and keeps the nanoseconds. -/
theorem withSecondCount?_eq_some_iff {x y : DateTime} {s : Int} :
    x.withSecondCount? s = some y ↔
      y.secondCount = s ∧ y.time.nanosecond = x.time.nanosecond := by
  have hy := y.time.seconds_mem
  simp only [withSecondCount?, Option.bind_eq_bind, Option.bind_eq_some_iff, Option.pure_def,
    Option.some.injEq, Date.ofDayNumber?_eq_some_iff]
  constructor
  · rintro ⟨d, hd, rfl⟩
    refine ⟨?_, rfl⟩
    simp only [secondCount]
    omega
  · rintro ⟨hs, hn⟩
    unfold secondCount at hs
    refine ⟨y.date, by omega, ?_⟩
    ext1
    · rfl
    · ext1
      · show s % 86400 = y.time.seconds
        omega
      · exact hn.symm

/-- A second without a moment lies on a day without a date. -/
theorem withSecondCount?_eq_none_iff {x : DateTime} {s : Int} :
    x.withSecondCount? s = none ↔ s / 86400 < Date.firstNumber ∨ Date.lastNumber < s / 86400 := by
  rw [← Date.ofDayNumber?_eq_none_iff, withSecondCount?]
  cases Date.ofDayNumber? (s / 86400) <;> simp

/-- Second and nanosecond determine a moment. -/
theorem eq_of_secondCount_eq {x y : DateTime} (hs : y.secondCount = x.secondCount)
    (hn : y.time.nanosecond = x.time.nanosecond) : y = x := by
  have hx := withSecondCount?_eq_some_iff.mpr (⟨rfl, rfl⟩ : x.secondCount = x.secondCount ∧ _)
  have hy := withSecondCount?_eq_some_iff.mpr ⟨hs, hn⟩
  exact Option.some.inj (hy.symm.trans hx)

/-! ## Steps -/

/-- The number from which a step away from the moment counts. -/
def departure (x : DateTime) (n : Int) : Int :=
  if n < 0 ∧ x.time.IsLeap then x.secondCount + 1 else x.secondCount

/-- The moment `n` seconds later. -/
def addSeconds? (x : DateTime) (n : Int) : Option DateTime :=
  if n = 0 then some x
  else withSecondCount? ⟨x.date, x.time.withoutLeap⟩ (x.departure n + n)

/-- The moment `n` days later. -/
def addDays? (x : DateTime) (n : Int) : Option DateTime := x.addSeconds? (86400 * n)

/-- A step of no days stays, also in a leap second. -/
theorem addDays?_zero (x : DateTime) : x.addDays? 0 = some x := rfl

/-- Away from leap seconds a step counts from the moment's own second. -/
theorem addSeconds?_of_not_isLeap {x : DateTime} (h : ¬ x.time.IsLeap) (n : Int) :
    x.addSeconds? n = x.withSecondCount? (x.secondCount + n) := by
  by_cases hn : n = 0
  · rw [addSeconds?, if_pos hn, hn, Int.add_zero]
    exact (withSecondCount?_eq_some_iff.mpr ⟨rfl, rfl⟩).symm
  · rw [addSeconds?, if_neg hn, TimeOfDay.withoutLeap_of_not_isLeap h, departure,
      if_neg (fun hl => h hl.2)]

/-- Away from leap seconds, a step of whole days keeps the time of day and moves the number of
the date. -/
theorem addDays?_eq_some_iff {x y : DateTime} {n : Int} (h : ¬ x.time.IsLeap) :
    x.addDays? n = some y ↔ y.time = x.time ∧ y.date.dayNumber = x.date.dayNumber + n := by
  have hx := x.time.seconds_mem
  have hy := y.time.seconds_mem
  rw [addDays?, addSeconds?_of_not_isLeap h, withSecondCount?_eq_some_iff]
  simp only [secondCount]
  constructor
  · rintro ⟨hs, hns⟩
    refine ⟨?_, by omega⟩
    ext1
    · omega
    · exact hns
  · rintro ⟨ht, hd⟩
    rw [ht, hd]
    exact ⟨by omega, rfl⟩

end DateTime

end Recurrence
