/-
# The searches on the calendar of dates in closed form

Each search through a month is settled on `dates`: which day it finds, in the words of
`Recurrence.Proofs.Gregorian.Days`, and when a step of it leaves the calendar.

The dates of a month are a month in the sense of `Calendar.IsMonth` (`isMonth`).  All months but the
very last have an end and a month after them, and all but the very first a month before.

A walk back stops at the last accepted day of the month, and one that accepts nothing takes all
its 31 steps, which leave the calendar from the first month only (`searchBack_of_isLast`,
`searchBack_of_never`).  The walk on stops at the `n`th day of its weekday or passes the whole
month, and its last step leaves the calendar from the last month only
(`nthWeekday_of_isNthOn`, `nthWeekday_of_not_exists`).  The nearest working day never fails
(`exists_isNearestWorkday`), because the first date is a Thursday and the last one a Monday.
-/
import Recurrence.Proofs.Gregorian.Dates
import Recurrence.Proofs.Gregorian.Days
import Recurrence.Proofs.Month

namespace Recurrence

namespace dates

open Date (SameMonth)

variable {d e : Date} {k : Nat}

/-! ## Reading a date -/

theorem toInt_day (d : Date) : (dates.day d).toInt = d.day := by
  have h := d.day_mem
  have hlen := monthLength_bounds d.year d.month
  exact Int32.toInt_ofInt_of_le (by omega) (by omega)

/-- Dates have the same day exactly if the words say so. -/
theorem day_eq_iff : dates.day d = dates.day e ↔ d.day = e.day := by
  rw [← Int32.toInt_inj, toInt_day, toInt_day]

theorem month_eq_iff : dates.month d = dates.month e ↔ d.month = e.month := by
  have hd := d.month_mem
  have he := e.month_mem
  exact int32_ofInt_eq_iff (by omega) (by omega)

theorem toNat_weekday (d : Date) : ((dates.weekday d).toNat : Int) = d.weekday := by
  have h := d.weekday_bounds
  show ((UInt32.ofNat d.weekday.toNat).toNat : Int) = d.weekday
  rw [UInt32.toNat_ofNat_of_lt' (by rw [UInt32.size]; omega)]
  omega

/-- Words and dates mean the same by falling on a weekday. -/
theorem sameWeekday_iff (w : Int32) :
    Calendar.SameWeekday (dates.weekday d) w ↔ d.FallsOn w.toInt := by
  have h := d.weekday_bounds
  have hnumber := toNat_weekday d
  rw [Calendar.sameWeekday_iff (by omega), hnumber]
  exact Iff.rfl

theorem isWorkday_iff : Calendar.IsWorkday (dates.weekday d) ↔ d.IsWorkday := by
  have h := toNat_weekday d
  rw [Calendar.isWorkday_iff, Date.IsWorkday]
  omega

theorem weekday_eq_sunday_iff : dates.weekday d = Calendar.sunday ↔ d.weekday = 7 := by
  have h := toNat_weekday d
  rw [Calendar.eq_sunday_iff]
  omega

theorem weekday_eq_saturday_iff : dates.weekday d = Calendar.saturday ↔ d.weekday = 6 := by
  have h := toNat_weekday d
  rw [Calendar.eq_saturday_iff]
  omega

/-! ## The month of a date -/

/-- The day of the month after `i` others. -/
theorem daysLater_firstOfMonth (d : Date) {i : Int} (hi : 0 ≤ i ∧ i < d.lengthOfMonth) :
    SameMonth d (d.firstOfMonth.daysLater i) ∧ (d.firstOfMonth.daysLater i).day = i + 1 := by
  have hday : d.firstOfMonth.day = 1 := rfl
  have hlen : d.firstOfMonth.lengthOfMonth = d.lengthOfMonth := rfl
  have h := d.firstOfMonth.daysLater_of_mem (n := i) (by omega)
  exact ⟨d.sameMonth_firstOfMonth.trans h.1, by omega⟩

/-- Every date is reached from the first of its month. -/
theorem daysLater_day_sub_one (he : SameMonth d e) : d.firstOfMonth.daysLater (e.day - 1) = e := by
  have hmem := he.day_mem
  have h := daysLater_firstOfMonth d (i := e.day - 1) (by omega)
  exact (he.symm.trans h.1).eq_of_day_eq (by omega)

theorem daysLater_lengthOfMonth_sub_one (d : Date) :
    d.firstOfMonth.daysLater (d.lengthOfMonth - 1) = d.lastOfMonth := by
  rw [show d.lengthOfMonth = d.lastOfMonth.day from rfl]
  exact daysLater_day_sub_one d.sameMonth_lastOfMonth

/-- **The dates of a month make up a month** for the searches. -/
theorem isMonth (d : Date) : dates.IsMonth d.firstOfMonth.daysLater d.lengthOfMonth where
  nonempty := by
    have hlen := d.lengthOfMonth_bounds
    omega
  day i hi := (toInt_day _).trans (daysLater_firstOfMonth d hi).2
  month i hi := by
    rw [Date.daysLater_zero]
    exact month_eq_iff.mpr (daysLater_firstOfMonth d hi).1.2
  beginningOfMonth i hi := by
    show Except.ok (d.firstOfMonth.daysLater i).firstOfMonth = _
    rw [(daysLater_firstOfMonth d hi).1.firstOfMonth_eq, Date.daysLater_zero]
  shiftDays i k hi hk := by
    have h₁ := daysLater_firstOfMonth d hi
    have h₂ := daysLater_firstOfMonth d hk
    have hnum := (h₁.1.symm.trans h₂.1).dayNumber_eq
    exact shiftDays_eq_ok (by omega)

/-- Every month of dates but the very last has an end. -/
theorem hasEnd (hd : ¬ d.IsLastMonth) : dates.HasEnd d.firstOfMonth.daysLater d.lengthOfMonth := by
  intro i hi
  have h := (daysLater_firstOfMonth d hi).1
  rw [endOfMonth_eq_ok (fun hl => hd (h.isLastMonth_iff.mp hl)), h.lastOfMonth_eq,
    daysLater_lengthOfMonth_sub_one]

/-- Every one but the very last has a month after it, with another number. -/
theorem hasNext (hd : ¬ d.IsLastMonth) :
    dates.HasNext d.firstOfMonth.daysLater d.lengthOfMonth := by
  have hlen := d.lengthOfMonth_bounds
  have hlast := d.dayNumber_lastOfMonth
  have hfirst := d.dayNumber_firstOfMonth
  have hb := d.firstOfMonth.dayNumber_bounds
  have hlt := Date.dayNumber_lastOfMonth_lt hd
  have hnum := d.firstOfMonth.dayNumber_daysLater (n := d.lengthOfMonth) (by omega)
  rw [Calendar.HasNext, daysLater_lengthOfMonth_sub_one, Date.daysLater_zero]
  refine ⟨shiftDays_eq_ok (by omega), fun hm => ?_⟩
  refine Date.month_ne_of_dayNumber hnum (by omega) ?_ (month_eq_iff.mp hm)
  show ¬ (1 ≤ 1 + d.lengthOfMonth ∧ 1 + d.lengthOfMonth ≤ d.lengthOfMonth)
  omega

theorem hasPrevious (hd : ¬ d.IsFirstMonth) : dates.HasPrevious d.firstOfMonth.daysLater := by
  have hb := d.firstOfMonth.dayNumber_bounds
  have hfirst := Date.firstNumber_add_le hd
  have hnum := d.firstOfMonth.dayNumber_daysLater (n := -1) (by omega)
  rw [Calendar.HasPrevious, Date.daysLater_zero]
  refine ⟨shiftDays_eq_ok (by omega), fun hm => ?_⟩
  refine Date.month_ne_of_dayNumber hnum (by omega) ?_ (month_eq_iff.mp hm)
  show ¬ (1 ≤ (1 : Int) + -1 ∧ _)
  omega

/-- The days of a month go through weeks from Monday to Sunday. -/
theorem inWeeks (d : Date) : dates.InWeeks d.firstOfMonth.daysLater d.lengthOfMonth
    (d.firstOfMonth.weekday - 1) := by
  intro i hi
  have hnum := (d.sameMonth_firstOfMonth.symm.trans (daysLater_firstOfMonth d hi).1).dayNumber_eq
  have hday : d.firstOfMonth.day = 1 := rfl
  have hk := (daysLater_firstOfMonth d hi).2
  rw [toNat_weekday, Date.weekday_of_dayNumber hnum]
  omega

/-! ## Back from the end of the month -/

section Back

variable {accept : UInt32 → Bool}

/-- A run back that may leave the month. -/
theorem isRun_back (d : Date) (h : Date.firstNumber ≤ d.dayNumber - k) :
    dates.IsRun (-1) (fun i : Nat => d.daysLater (-i)) k := by
  have hb := d.dayNumber_bounds
  intro i hi
  apply shiftDays_eq_ok
  rw [d.dayNumber_daysLater (by omega), d.dayNumber_daysLater (by omega)]
  omega

/-- **A walk back from the end of a month stops at the last accepted day of the month**, if there
is one. -/
theorem searchBack_of_isLast {q : Date → Prop} (haccept : ∀ x, accept (dates.weekday x) ↔ q x)
    (he : SameMonth d e) (hq : q e) (hlast : ∀ x, SameMonth d x → q x → x.day ≤ e.day) :
    dates.searchBack accept Calendar.longestMonth d.lastOfMonth = .ok (some (dates.day e)) := by
  have hlen := d.lengthOfMonth_bounds
  have hmem := he.day_mem
  have hend := daysLater_day_sub_one he
  rw [← daysLater_lengthOfMonth_sub_one, ← hend]
  refine (isMonth d).searchBack_eq (by omega) (by omega) (fun i hi => ?_) ?_
  · have h := daysLater_firstOfMonth d (i := i) (by omega)
    apply Bool.eq_false_iff.mpr
    intro hacc
    have hle := hlast _ h.1 ((haccept _).mp hacc)
    omega
  · rw [hend]
    exact (haccept e).mpr hq

/-- A walk back that accepts nothing leaves the calendar from the first month only. -/
theorem searchBack_of_never (haccept : ∀ x, accept (dates.weekday x) = false) :
    dates.searchBack accept Calendar.longestMonth d.lastOfMonth
      = if d.IsFirstMonth then .error .invalidDate else .ok none := by
  have hlast := d.dayNumber_lastOfMonth
  have hfirst := d.dayNumber_firstOfMonth
  have hlen := d.lengthOfMonth_bounds
  have hb := d.lastOfMonth.dayNumber_bounds
  by_cases hf : d.IsFirstMonth
  · -- the last of 31 steps starts on the first date of the calendar
    have hnum := Date.firstNumber_of_isFirstMonth hf
    have hl := Date.lengthOfMonth_of_isFirstMonth hf
    rw [if_pos hf]
    refine Calendar.searchBack_of_error (Date.daysLater_zero _) (show 30 < 31 by omega)
      (isRun_back d.lastOfMonth (by omega)) (fun i _ => haccept _) (shiftDays_eq_error (Or.inl ?_))
    rw [d.lastOfMonth.dayNumber_daysLater (by omega)]
    omega
  · have hnum := Date.firstNumber_add_le hf
    rw [if_neg hf]
    refine Calendar.searchBack_of_exhausted (Date.daysLater_zero _)
      (isRun_back d.lastOfMonth ?_) (fun i _ => haccept _)
    rw [show Calendar.longestMonth = 31 from rfl]
    omega

end Back

/-- The last day on a weekday is found. -/
theorem lastWeekday_of_isLastOn {w : Int32} (hd : ¬ d.IsLastMonth) (he : SameMonth d e)
    (hw : e.IsLastOn w.toInt) : dates.lastWeekday d w = .ok (some (dates.day e)) := by
  rw [Calendar.lastWeekday, endOfMonth_eq_ok hd]
  show dates.searchBack (fun number => Calendar.SameWeekday number w) _ d.lastOfMonth = _
  refine searchBack_of_isLast (q := fun x => x.FallsOn w.toInt) (fun x => ?_) he hw.1
    (fun x hx => hw.2 x (he.symm.trans hx))
  rw [decide_eq_true_eq]
  exact sameWeekday_iff w

/-- A search for no weekday passes the month and what lies before it. -/
theorem lastWeekday_of_not_weekday {w : Int32} (hd : ¬ d.IsLastMonth)
    (hw : ¬ (0 ≤ w.toInt ∧ w.toInt ≤ 7)) :
    dates.lastWeekday d w = if d.IsFirstMonth then .error .invalidDate else .ok none := by
  rw [Calendar.lastWeekday, endOfMonth_eq_ok hd]
  show dates.searchBack (fun number => Calendar.SameWeekday number w) _ d.lastOfMonth = _
  exact searchBack_of_never
    (fun x => decide_eq_false (fun h => hw ((sameWeekday_iff w).mp h).1))

/-- In the very last month the search fails at once. -/
theorem lastWeekday_of_isLastMonth (hd : d.IsLastMonth) (w : Int32) :
    dates.lastWeekday d w = .error .invalidDate := by
  rw [Calendar.lastWeekday, endOfMonth_eq_error hd]
  rfl

/-- The last working day is found. -/
theorem lastWorkday_of_isLastWorkday (hd : ¬ d.IsLastMonth) (he : SameMonth d e)
    (hw : e.IsLastWorkday) : dates.lastWorkday d = .ok (some (dates.day e)) := by
  rw [Calendar.lastWorkday, endOfMonth_eq_ok hd]
  show dates.searchBack (fun number => Calendar.IsWorkday number) _ d.lastOfMonth = _
  refine searchBack_of_isLast (q := Date.IsWorkday) (fun x => ?_) he hw.1
    (fun x hx => hw.2 x (he.symm.trans hx))
  rw [decide_eq_true_eq]
  exact isWorkday_iff

theorem lastWorkday_of_isLastMonth (hd : d.IsLastMonth) :
    dates.lastWorkday d = .error .invalidDate := by
  rw [Calendar.lastWorkday, endOfMonth_eq_error hd]
  rfl

/-! ## On from the beginning of the month -/

section Forward

variable {w nth : Int32}

/-- The walk counts the days of its weekday as `Date.weekdayCount` does. -/
theorem hits_eq_weekdayCount (d : Date) (w : Int32) (k : Nat) :
    dates.hits w (fun i : Nat => d.firstOfMonth.daysLater i) k = d.weekdayCount w.toInt k := by
  apply List.countP_congr
  intro i _
  rw [decide_eq_true_eq, decide_eq_true_eq]
  exact sameWeekday_iff w

/-- A day of the month on the weekday is the day with its own count. -/
theorem isNthOn_iff (d : Date) {i : Nat} (hi : (i : Int) < d.lengthOfMonth) :
    (d.firstOfMonth.daysLater i).IsNthOn w.toInt nth.toInt ↔
      Calendar.SameWeekday (dates.weekday (d.firstOfMonth.daysLater i)) w ∧
        nth.toInt = dates.hits w (fun i : Nat => d.firstOfMonth.daysLater i) i + 1 := by
  have h := daysLater_firstOfMonth d (i := i) (by omega)
  rw [sameWeekday_iff, Date.IsNthOn, h.1.weekdayCount_eq, h.2, hits_eq_weekdayCount,
    show ((i : Int) + 1).toNat = i + 1 by omega, Date.weekdayCount_succ]
  apply and_congr_right
  intro hw
  rw [if_pos hw]
  omega

/-- **The walk on finds the `n`th day of its weekday.** -/
theorem nthWeekday_of_isNthOn (he : SameMonth d e) (hn : e.IsNthOn w.toInt nth.toInt) :
    dates.nthWeekday d w nth = .ok (some (dates.day e)) := by
  have hd : 1 ≤ d.day ∧ d.day ≤ d.lengthOfMonth := d.day_mem
  have hmem := he.day_mem
  have hlen := d.lengthOfMonth_bounds
  obtain ⟨k, hk⟩ : ∃ k : Nat, (k : Int) = e.day - 1 := ⟨(e.day - 1).toNat, by omega⟩
  have hke : d.firstOfMonth.daysLater k = e := by rw [hk, daysLater_day_sub_one he]
  obtain ⟨hw, hc⟩ := (isNthOn_iff d (i := k) (by omega)).mp (hke.symm ▸ hn)
  have hfound := (isMonth d).nthWeekday_eq_some (i := d.day - 1) (by omega) (by omega)
    (show (k : Int) < d.lengthOfMonth by omega) hw hc
  rwa [daysLater_day_sub_one (SameMonth.refl d), hke] at hfound

/-- In a month without an `n`th day of its weekday no day completes the count. -/
theorem ne_hits_of_not_exists (hn : ∀ e, SameMonth d e → ¬ e.IsNthOn w.toInt nth.toInt) {i : Nat}
    (hi : (i : Int) < d.lengthOfMonth)
    (hw : Calendar.SameWeekday (dates.weekday (d.firstOfMonth.daysLater i)) w) :
    nth.toInt ≠ dates.hits w (fun i : Nat => d.firstOfMonth.daysLater i) i + 1 := by
  intro hc
  exact hn _ (daysLater_firstOfMonth d (i := i) (by omega)).1 ((isNthOn_iff d hi).mpr ⟨hw, hc⟩)

/-- **The walk on passes a month without an `n`th day of its weekday**, and its last step leaves
the calendar from the last month only. -/
theorem nthWeekday_of_not_exists (hnz : nth ≠ 0)
    (hn : ∀ e, SameMonth d e → ¬ e.IsNthOn w.toInt nth.toInt) :
    dates.nthWeekday d w nth = if d.IsLastMonth then .error .invalidDate else .ok none := by
  have hd : 1 ≤ d.day ∧ d.day ≤ d.lengthOfMonth := d.day_mem
  have hlen := d.lengthOfMonth_bounds
  have hself := daysLater_day_sub_one (SameMonth.refl d)
  by_cases hl : d.IsLastMonth
  · -- the last of 31 steps starts on the last date of the calendar
    have hnum := Date.lastNumber_of_isLastMonth hl
    have hl31 := Date.lengthOfMonth_of_isLastMonth hl
    have hwalk := (isMonth d).nthWeekday_of_ne_zero (i := d.day - 1) (w := w) (by omega) hnz
    rw [hself] at hwalk
    rw [if_pos hl, hwalk]
    refine Calendar.countForward_of_error (p := fun i : Nat => d.firstOfMonth.daysLater i) rfl
      (show 30 < 31 by omega) (by decide) ((isMonth d).isRun_forward (by omega))
      (fun i hi => (isMonth d).month i (by omega))
      (fun i hi => ne_hits_of_not_exists hn (by omega)) (shiftDays_eq_error (Or.inr ?_))
    have hend := daysLater_lengthOfMonth_sub_one d
    rw [hl31] at hend
    show Date.lastNumber < (d.firstOfMonth.daysLater (31 - 1)).dayNumber + 1
    rw [hend]
    omega
  · rw [if_neg hl]
    have hpassed := (isMonth d).nthWeekday_eq_none (hasNext hl) (i := d.day - 1) (by omega)
      (by omega) hnz (fun j hj => ne_hits_of_not_exists (w := w) hn hj)
    rwa [hself] at hpassed

/-- The number zero stands for the day before the month. -/
theorem nthWeekday_zero (he : e.dayNumber = d.firstOfMonth.dayNumber - 1) :
    dates.nthWeekday d w 0 = .ok (some (dates.day e)) := by
  have hs : dates.shiftDays d.firstOfMonth (-1) = .ok e := shiftDays_eq_ok (by omega)
  show (do return some (dates.day (← dates.shiftDays d.firstOfMonth (-1)))) = _
  rw [hs]
  rfl

/-- There is no day before the very first month. -/
theorem nthWeekday_zero_of_isFirstMonth (hd : d.IsFirstMonth) :
    dates.nthWeekday d w 0 = .error .invalidDate := by
  have hnum := Date.firstNumber_of_isFirstMonth hd
  have hs : dates.shiftDays d.firstOfMonth (-1) = .error .invalidDate :=
    shiftDays_eq_error (Or.inl (by omega))
  show (do return some (dates.day (← dates.shiftDays d.firstOfMonth (-1)))) = _
  rw [hs]
  rfl

end Forward

/-! ## Near a day -/

/-- From a Sunday the Monday after is found, or the Friday before at the end of the month. -/
theorem exists_isNearestWorkday_of_sunday (h7 : d.weekday = 7) :
    ∃ e, Date.IsNearestWorkday d e ∧ dates.nearestWorkday d = .ok (dates.day e) := by
  have hmem : 1 ≤ d.day ∧ d.day ≤ d.lengthOfMonth := d.day_mem
  have hlen := d.lengthOfMonth_bounds
  have hself := daysLater_day_sub_one (SameMonth.refl d)
  have hfound := (isMonth d).nearestWorkday_of_sunday (by omega) (i := d.day - 1) (by omega)
    (by rw [hself]; exact weekday_eq_sunday_iff.mpr h7)
    (fun hi => hasNext (Date.not_isLastMonth_of_sunday (by omega) h7))
  rw [hself] at hfound
  have he := daysLater_firstOfMonth d
    (i := if d.day - 1 < d.lengthOfMonth - 1 then d.day - 1 + 1 else d.day - 1 + -2)
    (by split <;> omega)
  refine ⟨_, Date.isNearestWorkday_of_sunday h7 he.1 ?_, hfound⟩
  rw [he.2]
  split <;> split <;> omega

/-- From a Saturday the Friday before is found, or the Monday after at the beginning of the
month. -/
theorem exists_isNearestWorkday_of_saturday (h6 : d.weekday = 6) :
    ∃ e, Date.IsNearestWorkday d e ∧ dates.nearestWorkday d = .ok (dates.day e) := by
  have hmem : 1 ≤ d.day ∧ d.day ≤ d.lengthOfMonth := d.day_mem
  have hlen := d.lengthOfMonth_bounds
  have hself := daysLater_day_sub_one (SameMonth.refl d)
  have hfound := (isMonth d).nearestWorkday_of_saturday (by omega) (i := d.day - 1) (by omega)
    (by rw [hself]; exact weekday_eq_saturday_iff.mpr h6)
    (fun hi => hasPrevious (Date.not_isFirstMonth_of_saturday (by omega) h6))
  rw [hself] at hfound
  have he := daysLater_firstOfMonth d
    (i := if 0 < d.day - 1 then d.day - 1 + -1 else d.day - 1 + 2) (by split <;> omega)
  refine ⟨_, Date.isNearestWorkday_of_saturday h6 he.1 ?_, hfound⟩
  rw [he.2]
  split <;> split <;> omega

/-- **The nearest working day is always found.** -/
theorem exists_isNearestWorkday (d : Date) :
    ∃ e, Date.IsNearestWorkday d e ∧ dates.nearestWorkday d = .ok (dates.day e) := by
  by_cases h7 : d.weekday = 7
  · exact exists_isNearestWorkday_of_sunday h7
  · by_cases h6 : d.weekday = 6
    · exact exists_isNearestWorkday_of_saturday h6
    · have hb := d.weekday_bounds
      rw [Calendar.nearestWorkday, if_neg (fun h => h7 (weekday_eq_sunday_iff.mp h)),
        if_neg (fun h => h6 (weekday_eq_saturday_iff.mp h))]
      exact ⟨d, Date.isNearestWorkday_self (show d.weekday ≤ 5 by omega), rfl⟩

/-- The anchor is the day with its number, or the last day of a shorter month. -/
theorem anchorDay_eq_ok {a : Date} {n : Int32} (hd : ¬ d.IsLastMonth)
    (ha : a.dayNumber = d.firstOfMonth.dayNumber + (min n.toInt d.lengthOfMonth - 1)) :
    dates.anchorDay d n = .ok a := by
  have hlast := d.dayNumber_lastOfMonth
  have hfirst := d.dayNumber_firstOfMonth
  have hday : (dates.day d.lastOfMonth).toInt = d.lengthOfMonth := toInt_day _
  by_cases hn : d.lengthOfMonth < n.toInt
  · rw [Calendar.anchorDay_of_lt (endOfMonth_eq_ok hd) (by omega),
      show a = d.lastOfMonth from Date.dayNumber_injective (by omega)]
  · rw [Calendar.anchorDay_of_le (endOfMonth_eq_ok hd) rfl (by omega)]
    exact shiftDays_eq_ok (by omega)

/-- An anchor before the first date is not found. -/
theorem anchorDay_eq_error {n : Int32} (hd : ¬ d.IsLastMonth)
    (hn : d.firstOfMonth.dayNumber + (n.toInt - 1) < Date.firstNumber) :
    dates.anchorDay d n = .error .invalidDate := by
  have hb := d.firstOfMonth.dayNumber_bounds
  have hlen := d.lengthOfMonth_bounds
  have hday : (dates.day d.lastOfMonth).toInt = d.lengthOfMonth := toInt_day _
  rw [Calendar.anchorDay_of_le (endOfMonth_eq_ok hd) rfl (by omega)]
  exact shiftDays_eq_error (Or.inl hn)

/-- In the very last month there is no anchor, because it is cut to the end of the month. -/
theorem anchorDay_of_isLastMonth (hd : d.IsLastMonth) (n : Int32) :
    dates.anchorDay d n = .error .invalidDate := by
  rw [Calendar.anchorDay, endOfMonth_eq_error hd]
  rfl

end dates

end Recurrence
