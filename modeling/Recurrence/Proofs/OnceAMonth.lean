/-
# Once a month on both calendars

The months of the Gregorian calendar, at a time of day away from leap seconds, and those of a table
with seven-day weeks are months in the sense of `Calendar.IsMonth`, so conditions on the place of a
day in its month hold there once a month (`fires_once_a_month`).

* The Gregorian calendar runs in step with its dates, so it is enough to look at those.  Every month
  but the very last has a month after it.  Before the very first there is none, but that one begins
  on a Thursday, so no search asks for it.
* A table has to reach from the day before the month to the day after it, and needs two months in
  the year for neighbours to have different numbers.
-/
import Recurrence.Proofs.Gregorian.Searches
import Recurrence.Proofs.Uniform.Month

namespace Recurrence

/-! ## Months of dates -/

namespace Date

variable {d e : Date}

/-- The days of the month of `d`. -/
def monthDays (d : Date) : List Date := Calendar.monthDays d.firstOfMonth.daysLater d.lengthOfMonth

/-- The days of a month are all dates in it. -/
theorem mem_monthDays : e ∈ d.monthDays ↔ SameMonth d e := by
  rw [monthDays, Calendar.mem_monthDays]
  constructor
  · rintro ⟨i, hi, rfl⟩
    exact (dates.daysLater_firstOfMonth d hi).1
  · intro h
    have hday := h.day_mem
    exact ⟨e.day - 1, by omega, dates.daysLater_day_sub_one h⟩

end Date

theorem dates.firesMonthly {d : Date} (hd : ¬ d.IsLastMonth) : dates.FiresMonthly d.monthDays := by
  have hlen := d.lengthOfMonth_bounds
  refine (isMonth d).firesMonthly (fun _ => rfl) (hasEnd hd) (hasNext hd) (fun hsat => ?_)
    (inWeeks d) (by omega)
  rw [Date.daysLater_zero] at hsat
  have hfirst : ¬ d.firstOfMonth.IsFirstMonth :=
    Date.not_isFirstMonth_of_saturday rfl (weekday_eq_saturday_iff.mp hsat)
  exact hasPrevious hfirst

/-! ## Months of the Gregorian calendar -/

/-- Conditions hold on equally many days of calendars that decide them alike. -/
theorem Condition.firings_map {α β : Type} {A : Calendar α} {B : Calendar β} {f : Field}
    {c : Condition} {g : β → α} (h : ∀ b, anyHolds A (g b) f [c] = anyHolds B b f [c])
    (days : List β) : c.firings A f (days.map g) = c.firings B f days := by
  have hask : (fun a => anyHolds A a f [c]) ∘ g = fun b => anyHolds B b f [c] := funext h
  rw [firings, firings, List.mapM_map, hask]

/-- Related calendars fire alike. -/
theorem DateSimulation.firesMonthly {α β : Type} {A : Calendar α} {B : Calendar β}
    {R : α → β → Prop} (h : DateSimulation A B R) {g : β → α} (hg : ∀ b, R (g b) b)
    (hinj : Function.Injective g) (hfd : ∀ b, A.field (g b) .day = B.field b .day)
    (hfw : ∀ b, A.field (g b) .weekday = B.field b .weekday) {days : List β}
    (hdays : B.FiresMonthly days) : A.FiresMonthly (days.map g) := by
  have hday : ∀ c : Condition, c.firings A .day (days.map g) = c.firings B .day days :=
    fun c => Condition.firings_map (fun b => h.anyHolds_eq (hg b) (hfd b) [c]) days
  have hweekday : ∀ c : Condition, c.firings A .weekday (days.map g) = c.firings B .weekday days :=
    fun c => Condition.firings_map (fun b => h.anyHolds_eq (hg b) (hfw b) [c]) days
  constructor
  case nodup => exact hdays.nodup.map hinj
  case lastDay => rw [hday, hdays.lastDay]
  case lastWorkday => rw [hday, hdays.lastWorkday]
  case nearestWorkday =>
    intro d hd
    rw [hday, hdays.nearestWorkday d hd]
  case lastWeekday =>
    intro w h₀ h₇
    rw [hweekday, hdays.lastWeekday w h₀ h₇]
  case nthWeekday =>
    intro w n h₀ h₇ hn
    have hcount : (days.map g).countP (A.FallsOn w) = days.countP (B.FallsOn w) := by
      rw [List.countP_map]
      apply List.countP_congr
      intro b _
      show decide (A.FallsOn w (g b)) = true ↔ decide (B.FallsOn w b) = true
      rw [decide_eq_true_eq, decide_eq_true_eq, Calendar.FallsOn, Calendar.FallsOn,
        h.weekday (hg b)]
    rw [hweekday, hdays.nthWeekday w n h₀ h₇ hn, hcount]

/-- The days of the month of `x`, each at the time of day of `x`. -/
def DateTime.monthDays (x : DateTime) : List DateTime := x.date.monthDays.map fun d => ⟨d, x.time⟩

/-- The moments of a month are its dates at that time of day. -/
theorem DateTime.mem_monthDays {x y : DateTime} :
    y ∈ x.monthDays ↔ Date.SameMonth x.date y.date ∧ y.time = x.time := by
  rw [monthDays, List.mem_map]
  constructor
  · rintro ⟨d, hd, rfl⟩
    exact ⟨Date.mem_monthDays.mp hd, rfl⟩
  · rintro ⟨hm, ht⟩
    exact ⟨y.date, Date.mem_monthDays.mpr hm, DateTime.ext rfl ht.symm⟩

theorem Gregorian.firesMonthly {x : DateTime} (hleap : ¬ x.time.IsLeap)
    (hlast : ¬ x.date.IsLastMonth) : gregorian.FiresMonthly x.monthDays :=
  gregorian_dates.firesMonthly
    (fun d => onDate_of_not_isLeap (x := ⟨d, x.time⟩) hleap)
    (fun _ _ hde => congrArg DateTime.date hde) (fun _ => rfl) (fun _ => rfl)
    (dates.firesMonthly hlast)

/-! ## Both calendars -/

/-- **Conditions on the place of a day in its month hold once a month**: on the Gregorian calendar,
at any time of day away from leap seconds, in every month but the very last, and on the calendar of
every table with months of 7 to 31 days, at least two months a year and weeks from Monday to
Sunday, in every month that lies in the table with the day before it and the day after it. -/
theorem fires_once_a_month :
    (∀ x : DateTime, ¬ x.time.IsLeap → ¬ x.date.IsLastMonth →
      gregorian.FiresMonthly x.monthDays) ∧
    (∀ (U : UniformCalendar) (t : Int), 7 ≤ U.monthLength ∧ U.monthLength ≤ 31 →
      2 ≤ U.monthsPerYear ∧ U.monthsPerYear ≤ 2147483647 →
      U.week.IsRotated [1, 2, 3, 4, 5, 6, 7] →
      U.earliest ≤ U.firstDay t - 1 ∧ U.lastDay t + 1 ≤ U.latest →
      U.calendar.FiresMonthly (U.monthDays t)) := by
  constructor
  · intro x hleap hlast
    exact Gregorian.firesMonthly hleap hlast
  · intro U t hlen hyear hweek hreach
    obtain ⟨first, hweeks⟩ := UniformCalendar.exists_inWeeks hweek t
    have hfirst : U.earliest ≤ U.firstDay t := by omega
    have hlast : U.lastDay t ≤ U.latest := by omega
    exact (UniformCalendar.isMonth hfirst hlast hlen.2).firesMonthly (fun _ => rfl)
      (UniformCalendar.hasEnd hfirst hlast) (UniformCalendar.hasNext hyear hfirst hreach.2)
      (fun _ => UniformCalendar.hasPrevious hyear hreach.1 hlast) hweeks hlen

/-- June of 2024 began on a Saturday and ended on a Sunday, so both its ends turn the search for a
working day round.  The month of the table is a single week from Wednesday to Tuesday. -/
theorem fires_once_a_month_june :
    let june : DateTime := ⟨⟨2024, 6, 10, by decide, by decide, by decide⟩,
      ⟨43200, 0, by decide, by decide⟩⟩
    let table : UniformCalendar := ⟨7, 2, [3, 4, 5, 6, 7, 1, 2], 6, 14, .invalidDate, 0, 0, 0,
      by decide, by decide, by decide⟩
    gregorian.FiresMonthly june.monthDays ∧ table.calendar.FiresMonthly (table.monthDays 10) := by
  intro june table
  constructor
  · exact fires_once_a_month.1 june (by decide) (by decide)
  · exact fires_once_a_month.2 table 10 (by decide) (by decide) ⟨5, rfl⟩ (by decide)

end Recurrence
