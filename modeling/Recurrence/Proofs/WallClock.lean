/-
# What a local clock shows

A zoned moment is tested by its local clock, and the clock is found by counting seconds.  This module
describes it without the count, by a clock that ticks (`Reading.Next`): the seconds carry over to the
minutes, the minutes to the hours and the hours to the date, which goes on to the next day of the
month, the next month or the next year.

* `DateTime.ticks_iff` : ticking and counting agree, over any number of seconds;
* `Zoned.shows_iff`, `Zoned.exists_shows_iff` : so the clock shows the second at the distance of the
  offset, on the calendar or not at all;
* `Schedule.zoned_by_wall_clock` : and a schedule sees nothing else of a zoned moment.

Ticks leave the nanoseconds alone, and with them the leap seconds.
-/
import Recurrence.Proofs.Gregorian.DayLine
import Recurrence.Schedule.WallClock

namespace Recurrence

/-! ## A ticking clock -/

/-- What a clock with a calendar shows. -/
structure Reading where
  date : Date
  hour : Int
  minute : Int
  second : Int

namespace Reading

/-- The reading one second later. -/
inductive Next : Reading → Reading → Prop
  | second {d : Date} {h m s : Int} (hs : s < 59) : Next ⟨d, h, m, s⟩ ⟨d, h, m, s + 1⟩
  | minute {d : Date} {h m : Int} (hm : m < 59) : Next ⟨d, h, m, 59⟩ ⟨d, h, m + 1, 0⟩
  | hour {d : Date} {h : Int} (hh : h < 23) : Next ⟨d, h, 59, 59⟩ ⟨d, h + 1, 0, 0⟩
  | day {d e : Date} (hd : Date.IsDayAfter d e) : Next ⟨d, 23, 59, 59⟩ ⟨e, 0, 0, 0⟩

/-- The number of the second that the clock shows. -/
def count (r : Reading) : Int :=
  86400 * r.date.dayNumber + 3600 * r.hour + 60 * r.minute + r.second

/-- Whatever carries over, a tick adds one. -/
theorem Next.count_eq {r r' : Reading} (h : Next r r') : r'.count = r.count + 1 := by
  cases h with
  | second hs | minute hm | hour hh =>
      simp only [count]
      omega
  | day hd =>
      have hnum := Date.isDayAfter_iff.mp hd
      simp only [count]
      omega

end Reading

namespace DateTime

variable {x y : DateTime} {n : Nat}

/-- What the clock shows at a moment. -/
def reading (x : DateTime) : Reading := ⟨x.date, x.time.hour, x.time.minute, x.time.second⟩

/-- The clock shows the second that is counted. -/
theorem count_reading (x : DateTime) : x.reading.count = x.secondCount := by
  simp only [Reading.count, reading, secondCount, TimeOfDay.hour, TimeOfDay.minute,
    TimeOfDay.second]
  omega

/-- The clock goes on by one second, with the same nanoseconds. -/
def Tick (x y : DateTime) : Prop :=
  x.reading.Next y.reading ∧ y.time.nanosecond = x.time.nanosecond

/-- The clock goes on by `n` seconds. -/
inductive Ticks : Nat → DateTime → DateTime → Prop
  | zero (x : DateTime) : Ticks 0 x x
  | succ {n : Nat} {x y z : DateTime} (h : Ticks n x y) (ht : Tick y z) : Ticks (n + 1) x z

/-! ## Ticking is counting -/

/-- The seconds of the day tell the hands of the clock. -/
theorem reading_eq {h m s : Int} (hm : 0 ≤ m ∧ m < 60) (hs : 0 ≤ s ∧ s < 60)
    (ht : x.time.seconds = 3600 * h + 60 * m + s) : x.reading = ⟨x.date, h, m, s⟩ := by
  simp only [reading, TimeOfDay.hour, TimeOfDay.minute, TimeOfDay.second, Reading.mk.injEq,
    true_and]
  omega

/-- The first hand that is not at its end goes on, and those after it go back to zero. -/
theorem next_of_succ (hdate : y.date = x.date) (hs : y.time.seconds = x.time.seconds + 1) :
    x.reading.Next y.reading := by
  have hy := y.time.seconds_mem
  have hx := x.time.seconds_mem
  obtain ⟨h, m, s, hm, hs', hhms⟩ : ∃ h m s : Int, (0 ≤ m ∧ m < 60) ∧ (0 ≤ s ∧ s < 60) ∧
      x.time.seconds = 3600 * h + 60 * m + s :=
    ⟨x.time.hour, x.time.minute, x.time.second, by unfold TimeOfDay.minute; omega,
      by unfold TimeOfDay.second; omega,
      by unfold TimeOfDay.hour TimeOfDay.minute TimeOfDay.second; omega⟩
  rw [reading_eq hm hs' hhms]
  by_cases hsecond : s < 59
  · rw [reading_eq (x := y) (h := h) hm (s := s + 1) (by omega) (by omega), hdate]
    exact .second hsecond
  · obtain rfl : s = 59 := by omega
    by_cases hminute : m < 59
    · rw [reading_eq (x := y) (h := h) (m := m + 1) (s := 0) (by omega) (by omega) (by omega),
        hdate]
      exact .minute hminute
    · obtain rfl : m = 59 := by omega
      rw [reading_eq (x := y) (h := h + 1) (m := 0) (s := 0) (by omega) (by omega) (by omega),
        hdate]
      exact .hour (by omega)

/-- After the last second of a day comes the first of the day after. -/
theorem next_of_isDayAfter (hdate : Date.IsDayAfter x.date y.date) (hx : x.time.seconds = 86399)
    (hy : y.time.seconds = 0) : x.reading.Next y.reading := by
  rw [reading_eq (h := 23) (m := 59) (s := 59) (by decide) (by decide) hx,
    reading_eq (x := y) (h := 0) (m := 0) (s := 0) (by decide) (by decide) hy]
  exact .day hdate

/-- **A tick counts one second.** -/
theorem tick_iff : Tick x y ↔
    y.secondCount = x.secondCount + 1 ∧ y.time.nanosecond = x.time.nanosecond := by
  unfold Tick
  refine and_congr_left fun _ => ?_
  constructor
  · intro h
    rw [← count_reading, ← count_reading, h.count_eq]
  · intro h
    have hx := x.time.seconds_mem
    have hy := y.time.seconds_mem
    unfold secondCount at h
    by_cases hlast : x.time.seconds = 86399
    · exact next_of_isDayAfter (Date.isDayAfter_iff.mpr (by omega)) hlast (by omega)
    · exact next_of_succ (Date.dayNumber_injective (by omega)) (by omega)

/-- Between two moments every second has one. -/
theorem exists_secondCount_eq {c : Int} (hx : x.secondCount ≤ c) (hy : c ≤ y.secondCount) :
    ∃ m : DateTime, m.secondCount = c ∧ m.time.nanosecond = x.time.nanosecond := by
  have hxb := x.date.dayNumber_bounds
  have hyb := y.date.dayNumber_bounds
  have hxs := x.time.seconds_mem
  have hys := y.time.seconds_mem
  unfold secondCount at hx hy
  rcases hm : x.withSecondCount? c with _ | m
  · have hnone := withSecondCount?_eq_none_iff.mp hm
    omega
  · exact ⟨m, withSecondCount?_eq_some_iff.mp hm⟩

/-- **Ticks count the seconds.** -/
theorem ticks_iff : Ticks n x y ↔
    y.secondCount = x.secondCount + n ∧ y.time.nanosecond = x.time.nanosecond := by
  constructor
  · intro h
    induction h with
    | zero x => exact ⟨(Int.add_zero _).symm, rfl⟩
    | succ _ ht ih =>
        obtain ⟨hs, hn⟩ := tick_iff.mp ht
        exact ⟨by omega, hn.trans ih.2⟩
  · rintro ⟨hs, hn⟩
    induction n generalizing y with
    | zero =>
        rw [eq_of_secondCount_eq (hs.trans (Int.add_zero _)) hn]
        exact .zero x
    | succ n ih =>
        -- the second before the last one has a moment
        obtain ⟨m, hms, hmn⟩ := exists_secondCount_eq (x := x) (y := y)
          (c := x.secondCount + n) (by omega) (by omega)
        exact .succ (ih hms hmn) (tick_iff.mpr ⟨by omega, hn.trans hmn.symm⟩)

end DateTime

/-! ## Local clocks -/

namespace Date

/-- The first date of the calendar. -/
def first : Date := ⟨firstYear, 1, 1, by decide, by decide, by decide⟩

/-- The last date of the calendar. -/
def last : Date := ⟨lastYear, 12, 31, by decide, by decide, by decide⟩

theorem dayNumber_first : first.dayNumber = firstNumber := by decide

theorem dayNumber_last : last.dayNumber = lastNumber := by decide

end Date

namespace Zoned

variable {z : Zoned} {x : DateTime}

/-- The local clock of a zoned moment shows `x`: it is as many ticks after universal time as the
offset has seconds east, or as many before it as the offset has seconds west. -/
def Shows (z : Zoned) (x : DateTime) : Prop :=
  if 0 ≤ z.offset.seconds then DateTime.Ticks z.offset.seconds.toNat z.utc x
  else DateTime.Ticks (-z.offset.seconds).toNat x z.utc

/-- The number of the second that the local clock should show. -/
def localCount (z : Zoned) : Int := z.utc.secondCount + z.offset.seconds

/-- The clock shows the second at the distance of the offset, in both directions. -/
theorem shows_iff : z.Shows x ↔
    x.secondCount = z.localCount ∧ x.time.nanosecond = z.utc.time.nanosecond := by
  unfold Shows localCount
  split
  · rw [DateTime.ticks_iff]
    exact and_congr_left fun _ => by omega
  · rw [DateTime.ticks_iff, eq_comm (a := z.utc.time.nanosecond)]
    exact and_congr_left fun _ => by omega

/-- The clock that is found by counting is the one that ticks. -/
theorem wallClock?_eq_some_iff_shows : z.wallClock? = some x ↔ z.Shows x :=
  wallClock?_eq_some_iff.trans shows_iff.symm

/-- The clock shows something exactly if the local day is on the calendar. -/
theorem exists_shows_iff : (∃ x, z.Shows x) ↔
    Date.first.dayNumber ≤ z.localCount / 86400 ∧ z.localCount / 86400 ≤ Date.last.dayNumber := by
  have hsome : (∃ x, z.Shows x) ↔ z.wallClock? ≠ none := by
    simp only [← wallClock?_eq_some_iff_shows, Option.ne_none_iff_exists']
  rw [hsome, ne_eq, wallClock?_eq_none_iff, Date.dayNumber_first, Date.dayNumber_last, localCount]
  omega

end Zoned

/-! ## Schedules -/

namespace Schedule

/-- There is no verdict exactly if the clock shows nothing. -/
theorem evaluateZoned?_eq_none_iff (s : Schedule) (z : Zoned) :
    s.evaluateZoned? z = none ↔ ¬ ∃ x, z.Shows x := by
  simp only [evaluateZoned?, ← Zoned.wallClock?_eq_some_iff_shows]
  cases z.wallClock? <;> simp

/-- **A zoned moment is tested by its local clock alone.**  The clock ticks from universal time by
the offset, forwards or backwards, to the second at that distance, and keeps the nanoseconds.  What
it shows gets the verdict, whatever universal time and offset lead to it.  It shows something exactly
if the local day is on the calendar, from its first date to its last, and there is no verdict exactly
if it shows nothing. -/
theorem zoned_by_wall_clock (s : Schedule) (z : Zoned) :
    (∀ x, z.Shows x →
      s.evaluateZoned? z = some (s.evaluate gregorian x) ∧
      ∀ z' : Zoned, z'.Shows x → s.evaluateZoned? z' = s.evaluateZoned? z) ∧
    (∀ x, z.Shows x ↔
      x.secondCount = z.utc.secondCount + z.offset.seconds ∧
        x.time.nanosecond = z.utc.time.nanosecond) ∧
    ((∃ x, z.Shows x) ↔
      Date.first.dayNumber ≤ (z.utc.secondCount + z.offset.seconds) / 86400 ∧
        (z.utc.secondCount + z.offset.seconds) / 86400 ≤ Date.last.dayNumber) ∧
    (s.evaluateZoned? z = none ↔ ¬ ∃ x, z.Shows x) := by
  have hverdict : ∀ (z : Zoned) x, z.Shows x → s.evaluateZoned? z = some (s.evaluate gregorian x) :=
    fun z x h => evaluateZoned?_of_wallClock? (Zoned.wallClock?_eq_some_iff_shows.mpr h)
  refine ⟨fun x hx => ⟨hverdict z x hx, fun z' hx' => ?_⟩, fun x => Zoned.shows_iff,
    Zoned.exists_shows_iff, s.evaluateZoned?_eq_none_iff z⟩
  rw [hverdict z x hx, hverdict z' x hx']

/-- Half past midnight on the first of March: an hour east of half past eleven on the leap day, and
an hour and a half west of two in the morning. -/
theorem zoned_by_wall_clock_leap_day :
    let s : Schedule := { hour := [.number 0], day := [.number 1], month := [.number 3] }
    let z : Zoned := ⟨⟨⟨2024, 2, 29, by decide, by decide, by decide⟩,
      ⟨84600, 0, by decide, by decide⟩⟩, ⟨3600, by decide⟩⟩
    let z' : Zoned := ⟨⟨⟨2024, 3, 1, by decide, by decide, by decide⟩,
      ⟨7200, 0, by decide, by decide⟩⟩, ⟨-5400, by decide⟩⟩
    let x : DateTime := ⟨⟨2024, 3, 1, by decide, by decide, by decide⟩,
      ⟨1800, 0, by decide, by decide⟩⟩
    z.Shows x ∧ z'.Shows x ∧ s.evaluateZoned? z = some (s.evaluate gregorian x) ∧
      s.evaluateZoned? z' = s.evaluateZoned? z := by
  intro s z z' x
  have hz : z.Shows x := ((zoned_by_wall_clock s z).2.1 x).mpr (by decide)
  have hz' : z'.Shows x := ((zoned_by_wall_clock s z').2.1 x).mpr (by decide)
  obtain ⟨hverdict, hsame⟩ := (zoned_by_wall_clock s z).1 x hz
  exact ⟨hz, hz', hverdict, hsame z' hz'⟩

end Schedule

end Recurrence
