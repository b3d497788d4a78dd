/-
# Days by their place in the month

What a schedule means by the days that it names through their place in a month, said of dates and
without any search:

* `Date.IsLastOn` : the last day of the month that falls on a weekday;
* `Date.IsNthOn` : the `n`th day of the month that falls on a weekday, by counting;
* `Date.IsLastWorkday` : the last day of the month from Monday to Friday;
* `Date.IsNearestWorkday` : the day from Monday to Friday nearest to another day of its month.

The lemmas give the arithmetic of these notions (day numbers and weekdays agree modulo seven) and
say which of the days exist.
-/
import Recurrence.Proofs.Gregorian.Month

namespace Recurrence

namespace Date

variable {d e : Date} {k w n : Int}

/-! ## Days of one month -/

/-- The date `e` lies in the month of `d`. -/
def SameMonth (d e : Date) : Prop := e.year = d.year ∧ e.month = d.month

namespace SameMonth

theorem refl (d : Date) : SameMonth d d := ⟨rfl, rfl⟩

theorem symm (h : SameMonth d e) : SameMonth e d := ⟨h.1.symm, h.2.symm⟩

theorem trans {a : Date} (h : SameMonth d e) (h' : SameMonth e a) : SameMonth d a :=
  ⟨h'.1.trans h.1, h'.2.trans h.2⟩

/-- Inside a month day numbers differ as the days do. -/
theorem dayNumber_eq (h : SameMonth d e) : e.dayNumber = d.dayNumber + (e.day - d.day) := by
  unfold dayNumber
  rw [h.1, h.2]
  omega

theorem lengthOfMonth_eq (h : SameMonth d e) : e.lengthOfMonth = d.lengthOfMonth := by
  rw [lengthOfMonth, h.1, h.2, lengthOfMonth]

/-- A date of the month has one of its days. -/
theorem day_mem (h : SameMonth d e) : 1 ≤ e.day ∧ e.day ≤ d.lengthOfMonth := by
  rw [← h.lengthOfMonth_eq]
  exact e.day_mem

/-- Year, month and day make the date. -/
theorem eq_of_day_eq (h : SameMonth d e) (hd : e.day = d.day) : e = d :=
  Date.ext h.1 h.2 hd

/-- Dates of one month share its first day. -/
theorem firstOfMonth_eq (h : SameMonth d e) : e.firstOfMonth = d.firstOfMonth :=
  Date.ext h.1 h.2 rfl

theorem lastOfMonth_eq (h : SameMonth d e) : e.lastOfMonth = d.lastOfMonth :=
  Date.ext h.1 h.2 h.lengthOfMonth_eq

/-- Dates of one month are in the very last month together. -/
theorem isLastMonth_iff (h : SameMonth d e) : e.IsLastMonth ↔ d.IsLastMonth := by
  rw [IsLastMonth, IsLastMonth, h.1, h.2]

end SameMonth

/-- Every number up to its length is a day of the month. -/
theorem exists_day (d : Date) (hk : 1 ≤ k ∧ k ≤ d.lengthOfMonth) :
    ∃ e, SameMonth d e ∧ e.day = k :=
  ⟨⟨d.year, d.month, k, d.year_mem, d.month_mem, hk⟩, ⟨rfl, rfl⟩, rfl⟩

/-- The first day belongs to the month. -/
theorem sameMonth_firstOfMonth (d : Date) : SameMonth d d.firstOfMonth := ⟨rfl, rfl⟩

theorem sameMonth_lastOfMonth (d : Date) : SameMonth d d.lastOfMonth := ⟨rfl, rfl⟩

/-! ## Counting days on and back -/

/-- The date `n` days later, where the calendar has one. -/
def daysLater (d : Date) (n : Int) : Date := (ofDayNumber? (d.dayNumber + n)).getD d

theorem daysLater_zero (d : Date) : d.daysLater 0 = d := by
  rw [daysLater, Int.add_zero, ofDayNumber?_dayNumber, Option.getD_some]

/-- On the calendar, later means a larger number. -/
theorem dayNumber_daysLater (d : Date)
    (h : firstNumber ≤ d.dayNumber + n ∧ d.dayNumber + n ≤ lastNumber) :
    (d.daysLater n).dayNumber = d.dayNumber + n := by
  obtain ⟨e, he⟩ := exists_dayNumber_eq h
  rw [daysLater, ofDayNumber?_eq_some_iff.mpr he, Option.getD_some, he]

/-- Within the month only the day changes. -/
theorem daysLater_of_mem (d : Date) (hn : 1 ≤ d.day + n ∧ d.day + n ≤ d.lengthOfMonth) :
    SameMonth d (d.daysLater n) ∧ (d.daysLater n).day = d.day + n := by
  obtain ⟨e, he, hday⟩ := d.exists_day hn
  have hnum := he.dayNumber_eq
  have hlater := d.dayNumber_daysLater (n := n) (by have := e.dayNumber_bounds; omega)
  have hee : d.daysLater n = e := dayNumber_injective (by omega)
  rw [hee]
  exact ⟨he, hday⟩

/-! ## Weekdays -/

/-- The date falls on the weekday written `w`: Monday is 1 and so on, Sunday is 7 or 0. -/
def FallsOn (d : Date) (w : Int) : Prop := (0 ≤ w ∧ w ≤ 7) ∧ d.weekday % 7 = w % 7

instance (d : Date) (w : Int) : Decidable (d.FallsOn w) := inferInstanceAs (Decidable (_ ∧ _))

/-- Day 1 was a Monday, so day numbers tell weekdays modulo seven. -/
theorem fallsOn_iff : d.FallsOn w ↔ (0 ≤ w ∧ w ≤ 7) ∧ d.dayNumber % 7 = w % 7 := by
  unfold FallsOn weekday
  omega

/-- The date is the last of its month on the weekday written `w`. -/
def IsLastOn (d : Date) (w : Int) : Prop :=
  d.FallsOn w ∧ ∀ e, SameMonth d e → e.FallsOn w → e.day ≤ d.day

/-- How many of the first `k` days of the month fall on the weekday written `w`. -/
def weekdayCount (d : Date) (w : Int) (k : Nat) : Nat :=
  (List.range k).countP fun i : Nat => (d.firstOfMonth.daysLater i).FallsOn w

/-- The date falls on the weekday written `w`, and the days of its month up to it that do so are
`n` in number. -/
def IsNthOn (d : Date) (w n : Int) : Prop :=
  d.FallsOn w ∧ d.weekdayCount w d.day.toNat = n

/-- One day more counts if it falls on the weekday. -/
theorem weekdayCount_succ (d : Date) (w : Int) (k : Nat) :
    d.weekdayCount w (k + 1)
      = d.weekdayCount w k + if (d.firstOfMonth.daysLater k).FallsOn w then 1 else 0 := by
  rw [weekdayCount, List.range_succ, List.countP_append, List.countP_singleton, ← weekdayCount]
  simp only [decide_eq_true_eq]

theorem SameMonth.weekdayCount_eq (h : SameMonth d e) (w : Int) (k : Nat) :
    e.weekdayCount w k = d.weekdayCount w k := by
  rw [weekdayCount, weekdayCount, h.firstOfMonth_eq]

/-- Every weekday has its last day in every month. -/
theorem exists_isLastOn (d : Date) (hw : 0 ≤ w ∧ w ≤ 7) : ∃ e, SameMonth d e ∧ e.IsLastOn w := by
  have hlen := d.lengthOfMonth_bounds
  -- as many days before the end of the month as the weekday has passed there
  obtain ⟨e, he, hday⟩ := d.exists_day (k := d.lengthOfMonth - (d.lastOfMonth.dayNumber - w) % 7)
    (by omega)
  have hlast := d.dayNumber_lastOfMonth
  have hnum := he.dayNumber_eq
  refine ⟨e, he, fallsOn_iff.mpr ⟨hw, by omega⟩, ?_⟩
  intro x hx hxw
  have hxd := (he.trans hx).day_mem
  have hxn := hx.dayNumber_eq
  have hxw' := (fallsOn_iff.mp hxw).2
  omega

/-- The last day on a weekday lies in the last seven days of the month. -/
theorem isLastOn_iff : d.IsLastOn w ↔ d.FallsOn w ∧ d.lengthOfMonth < d.day + 7 := by
  constructor
  · rintro ⟨hw, hlast⟩
    refine ⟨hw, ?_⟩
    obtain ⟨e, he, hew, heday⟩ := d.exists_isLastOn hw.1
    have hnum := he.dayNumber_eq
    have hle := hlast e he hew
    have hge := heday d he.symm hw
    rw [show d = e from he.symm.eq_of_day_eq (by omega)]
    rcases Int.lt_or_le e.lengthOfMonth (e.day + 7) with hlt | hle7
    · exact hlt
    · -- a week later there would be another one
      have hd := e.day_mem
      obtain ⟨x, hx, hxday⟩ := e.exists_day (k := e.day + 7) (by omega)
      have hxn := hx.dayNumber_eq
      have hew' := fallsOn_iff.mp hew
      have := heday x hx (fallsOn_iff.mpr ⟨hew'.1, by omega⟩)
      omega
  · rintro ⟨hw, hlen⟩
    refine ⟨hw, ?_⟩
    intro e he hew
    have hnum := he.dayNumber_eq
    have hed := he.day_mem
    have hw' := (fallsOn_iff.mp hw).2
    have hew' := (fallsOn_iff.mp hew).2
    omega

instance (d : Date) (w : Int) : Decidable (d.IsLastOn w) := decidable_of_iff _ isLastOn_iff.symm

instance (d : Date) (w n : Int) : Decidable (d.IsNthOn w n) := inferInstanceAs (Decidable (_ ∧ _))

/-- The last day of September in 2023 was the fifth and last Saturday of the month. -/
example : (⟨2023, 9, 30, by decide, by decide, by decide⟩ : Date).IsLastOn 6 ∧
    (⟨2023, 9, 30, by decide, by decide, by decide⟩ : Date).IsNthOn 6 5 := by decide

/-! ## Working days -/

/-- The date is a day from Monday to Friday. -/
def IsWorkday (d : Date) : Prop := d.weekday ≤ 5

instance (d : Date) : Decidable d.IsWorkday := inferInstanceAs (Decidable (_ ≤ _))

/-- Working days are told by the day number, because day 1 was a Monday. -/
theorem isWorkday_iff : d.IsWorkday ↔ (d.dayNumber - 1) % 7 ≤ 4 := by
  unfold IsWorkday weekday
  omega

/-- The date is the last working day of its month. -/
def IsLastWorkday (d : Date) : Prop :=
  d.IsWorkday ∧ ∀ e, SameMonth d e → e.IsWorkday → e.day ≤ d.day

/-- The date `e` is the working day nearest to `d` in the month of `d`: every other one is
further away. -/
def IsNearestWorkday (d e : Date) : Prop :=
  SameMonth d e ∧ e.IsWorkday ∧
    ∀ x, SameMonth d x → x.IsWorkday → x ≠ e → (e.day - d.day).natAbs < (x.day - d.day).natAbs

/-- Every month has a last working day. -/
theorem exists_isLastWorkday (d : Date) : ∃ e, SameMonth d e ∧ e.IsLastWorkday := by
  have hlen := d.lengthOfMonth_bounds
  have hlast := d.dayNumber_lastOfMonth
  -- the last day, or the Friday one or two days before it
  obtain ⟨e, he, hday⟩ := d.exists_day
    (k := d.lengthOfMonth - max 0 ((d.lastOfMonth.dayNumber - 1) % 7 - 4)) (by omega)
  have hnum := he.dayNumber_eq
  refine ⟨e, he, isWorkday_iff.mpr (by omega), ?_⟩
  intro x hx hxw
  have hxd := (he.trans hx).day_mem
  have hxn := hx.dayNumber_eq
  have hxw' := isWorkday_iff.mp hxw
  omega

/-- There is at most one nearest working day. -/
theorem IsNearestWorkday.unique {x : Date} (he : IsNearestWorkday d e)
    (hx : IsNearestWorkday d x) : e = x := by
  by_cases h : e = x
  · exact h
  · have h₁ := he.2.2 x hx.1 hx.2.1 (Ne.symm h)
    have h₂ := hx.2.2 e he.1 he.2.1 h
    omega

/-- A working day is its own nearest one. -/
theorem isNearestWorkday_self (h : d.IsWorkday) : IsNearestWorkday d d := by
  refine ⟨SameMonth.refl d, h, ?_⟩
  intro x hx _ hne
  have hday : x.day ≠ d.day := fun hd => hne (hx.eq_of_day_eq hd)
  omega

/-- Only a working day is its own nearest one. -/
theorem IsNearestWorkday.day_eq_iff (h : IsNearestWorkday d e) : e.day = d.day ↔ d.IsWorkday := by
  constructor
  · intro hday
    rw [← h.1.eq_of_day_eq hday]
    exact h.2.1
  · intro hd
    rw [h.unique (isNearestWorkday_self hd)]

/-- A Saturday gives way to the Friday before, the first of the month to the Monday after. -/
theorem isNearestWorkday_of_saturday (h : d.weekday = 6) (he : SameMonth d e)
    (hday : e.day = if 1 < d.day then d.day - 1 else d.day + 2) : IsNearestWorkday d e := by
  have hd := d.day_mem
  have hnum := he.dayNumber_eq
  unfold weekday at h
  refine ⟨he, isWorkday_iff.mpr ?_, ?_⟩
  · split at hday <;> omega
  · intro x hx hxw hne
    have hxn := hx.dayNumber_eq
    have hxd := hx.day_mem
    have hxw' := isWorkday_iff.mp hxw
    have hxe : x.day ≠ e.day := fun hd => hne ((he.symm.trans hx).eq_of_day_eq hd)
    split at hday <;> omega

/-- A Sunday gives way to the Monday after, the last of the month to the Friday before. -/
theorem isNearestWorkday_of_sunday (h : d.weekday = 7) (he : SameMonth d e)
    (hday : e.day = if d.day < d.lengthOfMonth then d.day + 1 else d.day - 2) :
    IsNearestWorkday d e := by
  have hd := d.day_mem
  have hnum := he.dayNumber_eq
  unfold weekday at h
  refine ⟨he, isWorkday_iff.mpr ?_, ?_⟩
  · split at hday <;> omega
  · intro x hx hxw hne
    have hxn := hx.dayNumber_eq
    have hxd := hx.day_mem
    have hxw' := isWorkday_iff.mp hxw
    have hxe : x.day ≠ e.day := fun hd => hne ((he.symm.trans hx).eq_of_day_eq hd)
    split at hday <;> omega

end Date

end Recurrence
