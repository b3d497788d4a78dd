/-
# The leap second at midnight

Conditions on the day, the month, the weekday and the year should depend on the date alone.  They
do, but for the leap second that ends a day.  From there a step backwards lands one day late, so
the end of the month is the first of the next one, and what is counted back from the beginning of
the month comes out a day later.

`Gregorian.dateConditions_iff` says exactly when two moments of one date are treated alike: both
or neither lie in the leap second at midnight, or the month is the very last one, which has no end
to step back to, and the day is neither of the two that the number zero can stand for.

That nothing less is enough follows from the days before the month.  `nearDay` asks for the working
day near a day at some distance from the first of the month.  If the shifted answers were the same
at all distances, then the answer on the first itself, which never fails, would be the one before
the first date of the calendar, which always does (`not_forall_nearDay_eq`).
-/
import Recurrence.Proofs.Gregorian.Searches

namespace Recurrence

namespace Gregorian

variable {x y : DateTime} {d : Date} {n : Int}

/-! ## Steps from moments of one date -/

/-- Two moments have the same date. -/
def SameDate (x y : DateTime) : Prop := x.date = y.date

/-- Two moments have the same date, and both or neither lie in the leap second at its end. -/
def InStep (x y : DateTime) : Prop :=
  x.date = y.date ∧ (x.time.IsMidnightLeap ↔ y.time.IsMidnightLeap)

theorem sameDate_readsAlike : ReadsAlike gregorian gregorian SameDate where
  weekday h := congrArg (fun d : Date => UInt32.ofNat d.weekday.toNat) h
  day h := congrArg (fun d : Date => Int32.ofInt d.day) h
  month h := congrArg (fun d : Date => Int32.ofInt d.month) h

/-- Steps that land on the same day lead to the same date, or out of the calendar. -/
theorem shiftDays_sameDate (h : x.landing n = y.landing n) :
    OutcomesAgree SameDate (gregorian.shiftDays x n) (gregorian.shiftDays y n) := by
  have hd : (x.addDays? n).map (·.date) = (y.addDays? n).map (·.date) := by
    rw [DateTime.date_addDays?, DateTime.date_addDays?, h]
  show OutcomesAgree SameDate (arrive (x.addDays? n)) (arrive (y.addDays? n))
  rcases hx : x.addDays? n with _ | x' <;> rcases hy : y.addDays? n with _ | y' <;>
    rw [hx, hy] at hd
  · rfl
  · cases hd
  · cases hd
  · exact Option.some.inj hd

/-- Shifts keep moments in step, from a leap second or not. -/
theorem shiftDays_inStep (h : InStep x y) (n : Int) :
    OutcomesAgree InStep (gregorian.shiftDays x n) (gregorian.shiftDays y n) := by
  by_cases hn : n = 0
  · rw [hn]
    exact h
  · have hland : x.landing n = y.landing n := by
      unfold DateTime.landing
      rw [h.1]
      simp only [h.2]
    refine (shiftDays_sameDate hland).imp fun x' y' hx hy hd => ⟨hd, ?_⟩
    -- a proper step leaves leap seconds on both sides
    have hx' := DateTime.not_isLeap_of_addDays? hn (arrive_eq_ok_iff.mp hx)
    have hy' := DateTime.not_isLeap_of_addDays? hn (arrive_eq_ok_iff.mp hy)
    exact iff_of_false (fun hm => hx' hm.1) (fun hm => hy' hm.1)

/-- Moments in step are treated alike by every search. -/
theorem inStep : DateSimulation gregorian gregorian InStep where
  weekday h := sameDate_readsAlike.weekday h.1
  day h := sameDate_readsAlike.day h.1
  month h := sameDate_readsAlike.month h.1
  endOfMonth := by
    intro x y h
    rcases hn : x.date.firstOfNextMonth? with _ | next
    · have hx : x.date.IsLastMonth := x.date.firstOfNextMonth?_eq_none_iff.mp hn
      have hy : y.date.IsLastMonth := h.1 ▸ hx
      rw [endOfMonth_of_isLastMonth hx, endOfMonth_of_isLastMonth hy]
      rfl
    · have hy : y.date.firstOfNextMonth? = some next := h.1 ▸ hn
      rw [endOfMonth_of_next hn, endOfMonth_of_next hy]
      exact shiftDays_inStep (x := ⟨next, x.time⟩) (y := ⟨next, y.time⟩) ⟨rfl, h.2⟩ (-1)
  beginningOfMonth := by
    rintro ⟨d, t⟩ ⟨_, u⟩ ⟨rfl, hl⟩
    exact ⟨rfl, hl⟩
  shiftDays n h := shiftDays_inStep h n.toInt

/-! ## Counting back from the first of the month -/

/-- Whether `d` has the number of the working day nearest to the day at distance `k` from the first
of its month. -/
def nearDay (d : Date) (k : Int) : Except Fault Bool := do
  return (← dates.nearestWorkday (← dates.shiftDays d.firstOfMonth k)) = dates.day d

theorem exists_nearDay_zero (d : Date) : ∃ b, nearDay d 0 = .ok b := by
  obtain ⟨e, -, he⟩ := dates.exists_isNearestWorkday d.firstOfMonth
  have hs : dates.shiftDays d.firstOfMonth 0 = .ok d.firstOfMonth :=
    dates.shiftDays_eq_ok (by omega)
  refine ⟨decide (dates.day e = dates.day d), ?_⟩
  rw [nearDay, hs]
  show (do return (← dates.nearestWorkday d.firstOfMonth) = dates.day d : Except Fault Bool) = _
  rw [he]
  rfl

theorem nearDay_eq_error {k : Int} (h : d.firstOfMonth.dayNumber + k < Date.firstNumber) :
    nearDay d k = .error .invalidDate := by
  rw [nearDay, dates.shiftDays_eq_error (Or.inl h)]
  rfl

/-- Answers that are the same for neighbours are the same at all distances. -/
theorem nearDay_neg_eq
    (h : ∀ n : Int32, n.toInt ≤ 0 → nearDay d (n.toInt - 1) = nearDay d n.toInt) {k : Nat}
    (hk : k < 2147483648) : nearDay d (-k) = nearDay d 0 := by
  induction k with
  | zero => rfl
  | succ k ih =>
      have hword : (Int32.ofInt (-k)).toInt = -k :=
        Int32.toInt_ofInt_of_le (by omega) (by omega)
      have hstep := h (Int32.ofInt (-k)) (by omega)
      rw [hword] at hstep
      rw [← ih (by omega), ← hstep]
      congr 1
      omega

/-- **The days before the month are told apart from their neighbours.** -/
theorem not_forall_nearDay_eq (d : Date) :
    ¬ ∀ n : Int32, n.toInt ≤ 0 → nearDay d (n.toInt - 1) = nearDay d n.toInt := by
  intro h
  have hb := d.firstOfMonth.dayNumber_bounds
  have hspan : Date.lastNumber - Date.firstNumber < 2147483647 := by decide
  -- 32 bits reach back to a day before the first date of the calendar
  obtain ⟨k, hk⟩ : ∃ k : Nat, (k : Int) = d.firstOfMonth.dayNumber - Date.firstNumber + 1 :=
    ⟨(d.firstOfMonth.dayNumber - Date.firstNumber + 1).toNat, by omega⟩
  have hzero := nearDay_neg_eq h (k := k) (by omega)
  obtain ⟨b, hok⟩ := exists_nearDay_zero d
  rw [nearDay_eq_error (by omega), hok] at hzero
  cases hzero

/-- On dates an anchor below one is counted back from the first of the month. -/
theorem isNearestWorkday_dates {n : Int32} (hl : ¬ d.IsLastMonth) (hn : n.toInt ≤ 0) :
    Condition.isNearestWorkday dates d (.day n) = nearDay d (n.toInt - 1) := by
  have hlen := d.lengthOfMonth_bounds
  have hday : (dates.day d.lastOfMonth).toInt = d.lengthOfMonth := dates.toInt_day _
  rw [Condition.isNearestWorkday,
    Calendar.anchorDay_of_le (dates.endOfMonth_eq_ok hl) rfl (by omega)]
  rfl

/-- From the leap second at midnight the end of the month is the first of the next. -/
theorem exists_endOfMonth_of_isMidnightLeap (hx : x.time.IsMidnightLeap)
    (hl : ¬ x.date.IsLastMonth) : ∃ y, gregorian.endOfMonth x = .ok y ∧ y.date.day = 1 := by
  rcases hn : x.date.firstOfNextMonth? with _ | next
  · exact absurd (x.date.firstOfNextMonth?_eq_none_iff.mp hn) hl
  · have hday : next.day = 1 := by
      unfold Date.firstOfNextMonth? at hn
      split at hn <;> exact (Date.ofCivil?_eq_some_iff.mp hn).2.2
    have hs := shiftDays_back (x := ⟨next, x.time⟩) (n := -1) hx (by decide)
    rw [dates.shiftDays_eq_ok (e := next) (by show _ = next.dayNumber + (-1 + 1); omega)] at hs
    obtain ⟨e, -, he⟩ | ⟨y, e, hy, he, hye⟩ := hs.cases
    · cases he
    · rw [endOfMonth_of_next hn]
      exact ⟨y, hy, by rw [hye.1, ← Except.ok.inj he, hday]⟩

/-- From the leap second at midnight an anchor below one comes out a day later. -/
theorem isNearestWorkday_of_isMidnightLeap {n : Int32} (hx : x.time.IsMidnightLeap)
    (hl : ¬ x.date.IsLastMonth) (hn : n.toInt ≤ 0) :
    Condition.isNearestWorkday gregorian x (.day n) = nearDay x.date n.toInt := by
  obtain ⟨last, hlast, hday⟩ := exists_endOfMonth_of_isMidnightLeap hx hl
  have hone : (gregorian.day last).toInt = 1 := by
    show (Int32.ofInt last.date.day).toInt = 1
    rw [hday]
    decide
  have hs := shiftDays_back (x := beginningOfMonth x) (n := n.toInt - 1) hx (by omega)
  rw [Int.sub_add_cancel] at hs
  rw [Condition.isNearestWorkday, Calendar.anchorDay_of_le hlast rfl (by omega)]
  apply hs.bind_eq
  intro y e hye
  rw [gregorian_dates.nearestWorkday_eq hye]
  rfl

/-! ## In the last month of the calendar -/

theorem firstOfMonth_of_isLastMonth (hl : d.IsLastMonth) :
    d.firstOfMonth = ⟨262142, 12, 1, by decide, by decide, by decide⟩ :=
  Date.ext hl.1 hl.2 rfl

/-- The number zero stands for the day before the month, or for its first day if counting back
starts in the leap second at midnight. -/
theorem nthWeekday_zero_of_isLastMonth (hl : x.date.IsLastMonth) (w : Int32) :
    gregorian.nthWeekday x w 0 = .ok (some (if x.time.IsMidnightLeap then 1 else 30)) := by
  have hfirst := firstOfMonth_of_isLastMonth hl
  show (do return some (gregorian.day (← gregorian.shiftDays (beginningOfMonth x) (-1)))) = _
  by_cases hm : x.time.IsMidnightLeap
  · rw [if_pos hm]
    have hs := shiftDays_back (x := beginningOfMonth x) (n := -1) hm (by decide)
    rw [dates.shiftDays_eq_ok (e := x.date.firstOfMonth)
      (by show _ = x.date.firstOfMonth.dayNumber + (-1 + 1); omega)] at hs
    apply hs.bind_eq (l := fun e => pure (some (dates.day e)))
    intro y e hye
    rw [gregorian_dates.day hye]
  · rw [if_neg hm]
    have hs := shiftDays_agree (x := beginningOfMonth x) (d := x.date.firstOfMonth) ⟨rfl, hm⟩ (-1)
    rw [dates.shiftDays_eq_ok (e := ⟨262142, 11, 30, by decide, by decide, by decide⟩)
      (by rw [hfirst]; decide)] at hs
    apply hs.bind_eq (l := fun e => pure (some (dates.day e)))
    intro y e hye
    rw [gregorian_dates.day hye]

/-- Counting on from the first of the month never steps back. -/
theorem nthWeekday_sameDate (h : SameDate x y) {nth : Int32} (hn : nth ≠ 0) (w : Int32) :
    gregorian.nthWeekday x w nth = gregorian.nthWeekday y w nth := by
  have hstart : SameDate (beginningOfMonth x) (beginningOfMonth y) :=
    congrArg Date.firstOfMonth h
  have hforward : ∀ {x y}, SameDate x y →
      OutcomesAgree SameDate (gregorian.shiftDays x 1) (gregorian.shiftDays y 1) := by
    intro x y hxy
    apply shiftDays_sameDate
    have hd : x.date = y.date := hxy
    rw [DateTime.landing, DateTime.landing, hd, if_neg (fun h => absurd h.1 (by decide)),
      if_neg (fun h => absurd h.1 (by decide))]
  show (if nth = 0 then _ else gregorian.countForward (gregorian.month (beginningOfMonth x)) w
      Calendar.longestMonth nth (beginningOfMonth x))
    = if nth = 0 then _ else gregorian.countForward (gregorian.month (beginningOfMonth y)) w
      Calendar.longestMonth nth (beginningOfMonth y)
  rw [if_neg hn, if_neg hn, sameDate_readsAlike.month hstart]
  exact sameDate_readsAlike.countForward_eq hforward _ w _ nth hstart

/-- On the other days of the last month the number zero says no. -/
theorem not_nthWeekday_zero (hl : x.date.IsLastMonth)
    (hday : x.date.day ≠ 1 ∧ x.date.day ≠ 30) (w : Int32) :
    (do return (← gregorian.nthWeekday x w 0) = some (gregorian.day x) : Except Fault Bool)
      = .ok false := by
  have hx : (gregorian.day x).toInt = x.date.day := dates.toInt_day x.date
  have hne : (if x.time.IsMidnightLeap then 1 else 30) ≠ gregorian.day x := by
    intro hd
    have hdx := congrArg Int32.toInt hd
    rw [hx] at hdx
    split at hdx
    · exact hday.1 hdx.symm
    · exact hday.2 hdx.symm
  rw [nthWeekday_zero_of_isLastMonth hl]
  exact congrArg Except.ok (decide_eq_false fun h => hne (Option.some.inj h))

/-- In the last month only the number zero looks back. -/
theorem holds_eq_of_isLastMonth (h : SameDate x y) (hl : x.date.IsLastMonth)
    (hday : x.date.day ≠ 1 ∧ x.date.day ≠ 30) (f : Field) (v : Int32) (c : Condition) :
    c.holds gregorian x f v = c.holds gregorian y f v := by
  have hy : y.date.IsLastMonth := by rwa [← show x.date = y.date from h]
  have hex := endOfMonth_of_isLastMonth hl
  have hey := endOfMonth_of_isLastMonth hy
  cases c with
  | any | number | range | step => rfl
  | lastDay => rw [Condition.holds, Condition.holds, hex, hey]
  | nearestWorkday anchor =>
      have hn : Condition.isNearestWorkday gregorian x anchor
          = Condition.isNearestWorkday gregorian y anchor := by
        cases anchor with
        | lastDay =>
            rw [Condition.isNearestWorkday, Condition.isNearestWorkday, Calendar.lastWorkday,
              Calendar.lastWorkday, hex, hey]
            rfl
        | day n =>
            rw [Condition.isNearestWorkday, Condition.isNearestWorkday, Calendar.anchorDay,
              Calendar.anchorDay, hex, hey]
            rfl
      rw [Condition.holds, Condition.holds, hn]
  | lastWeekday w =>
      rw [Condition.holds, Condition.holds, Calendar.lastWeekday, Calendar.lastWeekday, hex, hey]
      rfl
  | nthWeekday w nth =>
      rw [Condition.holds, Condition.holds]
      by_cases hz : nth = 0
      · have hdy : y.date.day ≠ 1 ∧ y.date.day ≠ 30 := by rwa [← show x.date = y.date from h]
        rw [hz, not_nthWeekday_zero hl hday, not_nthWeekday_zero hy hdy]
      · rw [nthWeekday_sameDate h hz, sameDate_readsAlike.day h]

/-! ## Exactly when the time of day is not seen -/

/-- The leap second at midnight makes no difference between two moments of one date. -/
def Interchangeable (x y : DateTime) : Prop :=
  (x.time.IsMidnightLeap ↔ y.time.IsMidnightLeap) ∨
    (x.date.IsLastMonth ∧ x.date.day ≠ 1 ∧ x.date.day ≠ 30)

/-- The fields that are read off the date. -/
def dateFields : List Field := [.day, .month, .weekday, .year]

/-- The fields of the date do not see the time of day. -/
theorem field_eq_of_mem (h : SameDate x y) {f : Field} (hf : f ∈ dateFields) :
    gregorian.field x f = gregorian.field y f := by
  have hd : x.date = y.date := h
  cases f with
  | second | minute | hour => exact absurd hf (by decide)
  | day | month | weekday | year =>
      simp only [gregorian, field, hd]

theorem anyHolds_eq_of_interchangeable (h : SameDate x y) (hi : Interchangeable x y) {f : Field}
    (hf : gregorian.field x f = gregorian.field y f) (conditions : List Condition) :
    Condition.anyHolds gregorian x f conditions = Condition.anyHolds gregorian y f conditions := by
  have hv : gregorian.candidates x f = gregorian.candidates y f := by
    rw [Calendar.candidates, Calendar.candidates, sameDate_readsAlike.weekday h, hf]
  apply anyHolds_congr hv
  intro v c
  rcases hi with hl | ⟨hl, hday⟩
  · exact inStep.holds_eq ⟨h, hl⟩ f v c
  · exact holds_eq_of_isLastMonth h hl hday f v c

/-- Before the last month, the days before the month tell the leap second at midnight from
another time of the day. -/
theorem isLastMonth_of_agree (h : SameDate x y) (hx : x.time.IsMidnightLeap)
    (hy : ¬ y.time.IsMidnightLeap)
    (hagree : ∀ n, Condition.anyHolds gregorian x .day [.nearestWorkday (.day n)]
      = Condition.anyHolds gregorian y .day [.nearestWorkday (.day n)]) : x.date.IsLastMonth := by
  by_cases hl : x.date.IsLastMonth
  · exact hl
  · refine absurd ?_ (not_forall_nearDay_eq x.date)
    intro n hn
    have hone : ∀ z : DateTime, Condition.anyHolds gregorian z .day [.nearestWorkday (.day n)]
        = Condition.isNearestWorkday gregorian z (.day n) :=
      fun z => anyHolds_singleton nofun fun v => rfl
    have hboth := hagree n
    rw [hone, hone, isNearestWorkday_of_isMidnightLeap hx hl hn,
      gregorian_dates.isNearestWorkday_eq ⟨h.symm, hy⟩, isNearestWorkday_dates hl hn] at hboth
    exact hboth.symm

/-- In the last month the number zero stands for day 30, or for day 1 if counting back starts in a
leap second at midnight. -/
theorem anyHolds_nthWeekday_zero (hl : x.date.IsLastMonth) :
    Condition.anyHolds gregorian x .weekday [.nthWeekday 0 0]
      = .ok (decide ((if x.time.IsMidnightLeap then 1 else 30) = gregorian.day x)) := by
  apply anyHolds_singleton (by decide)
  intro v
  rw [Condition.holds, nthWeekday_zero_of_isLastMonth hl]
  show Except.ok (decide (some _ = some (gregorian.day x))) = _
  simp only [Option.some.injEq]

/-- In the last month, the days that the number zero can stand for tell the leap second at midnight
from another time of the day. -/
theorem day_ne_of_agree (h : SameDate x y) (hx : x.time.IsMidnightLeap)
    (hy : ¬ y.time.IsMidnightLeap) (hl : x.date.IsLastMonth)
    (hagree : Condition.anyHolds gregorian x .weekday [.nthWeekday 0 0]
      = Condition.anyHolds gregorian y .weekday [.nthWeekday 0 0]) :
    x.date.day ≠ 1 ∧ x.date.day ≠ 30 := by
  have hly : y.date.IsLastMonth := by rwa [← show x.date = y.date from h]
  have hday : gregorian.day x = .ofInt x.date.day := rfl
  rw [anyHolds_nthWeekday_zero hl, anyHolds_nthWeekday_zero hly, if_pos hx, if_neg hy,
    ← sameDate_readsAlike.day h, Except.ok.injEq, decide_eq_decide, hday] at hagree
  constructor
  · intro h1
    rw [h1] at hagree
    exact absurd (hagree.mp rfl) (by decide)
  · intro h30
    rw [h30] at hagree
    exact absurd (hagree.mpr rfl) (by decide)

/-- Moments of one date that no condition tells apart are interchangeable. -/
theorem interchangeable_of_agree (h : SameDate x y)
    (hagree : ∀ f ∈ dateFields, ∀ conditions,
      Condition.anyHolds gregorian x f conditions = Condition.anyHolds gregorian y f conditions) :
    Interchangeable x y := by
  have hd := hagree .day (by decide)
  have hw := hagree .weekday (by decide)
  by_cases hx : x.time.IsMidnightLeap
  · by_cases hy : y.time.IsMidnightLeap
    · exact Or.inl (iff_of_true hx hy)
    · have hl := isLastMonth_of_agree h hx hy fun n => hd _
      exact Or.inr ⟨hl, day_ne_of_agree h hx hy hl (hw _)⟩
  · by_cases hy : y.time.IsMidnightLeap
    · have hl := isLastMonth_of_agree h.symm hy hx fun n => (hd _).symm
      have hday := day_ne_of_agree h.symm hy hx hl (hw _).symm
      rw [← show x.date = y.date from h] at hl hday
      exact Or.inr ⟨hl, hday⟩
    · exact Or.inl (iff_of_false hx hy)

/-- **When the time of day is not seen.**  Two moments of one date are treated alike by all
conditions on the day, the month, the weekday and the year exactly if they are interchangeable;
and if they agree on all fields, by all schedules exactly if they are interchangeable. -/
theorem dateConditions_iff (hd : x.date = y.date) :
    ((∀ f ∈ dateFields, ∀ conditions,
        Condition.anyHolds gregorian x f conditions = Condition.anyHolds gregorian y f conditions)
      ↔ Interchangeable x y) ∧
    ((∀ f, gregorian.field x f = gregorian.field y f) →
      ((∀ s : Schedule, s.evaluate gregorian x = s.evaluate gregorian y)
        ↔ Interchangeable x y)) := by
  constructor
  · refine ⟨interchangeable_of_agree hd, ?_⟩
    intro hi f hf
    exact anyHolds_eq_of_interchangeable hd hi (field_eq_of_mem hd hf)
  · intro hfields
    constructor
    · -- a schedule with conditions on one field only shows their outcome
      intro hsame
      apply interchangeable_of_agree hd
      intro f _ conditions
      rw [← Schedule.result_only, ← Schedule.result_only, hsame]
    · intro hi s
      apply Schedule.evaluate_congr
      intro f
      exact anyHolds_eq_of_interchangeable hd hi (hfields f) (s.conditions f)

/-- A leap second in the middle of the day is not seen. -/
theorem dateConditions_iff_noon :
    let leap : DateTime := ⟨⟨2016, 12, 31, by decide, by decide, by decide⟩,
      ⟨43199, 1500000000, by decide, by decide⟩⟩
    let plain : DateTime := ⟨⟨2016, 12, 31, by decide, by decide, by decide⟩,
      ⟨43199, 500000000, by decide, by decide⟩⟩
    let s : Schedule := { day := [.lastDay] }
    Condition.anyHolds gregorian leap .day [.lastDay]
        = Condition.anyHolds gregorian plain .day [.lastDay] ∧
      s.evaluate gregorian leap = s.evaluate gregorian plain := by
  intro leap plain s
  obtain ⟨hconditions, hverdicts⟩ := dateConditions_iff (x := leap) (y := plain) rfl
  have hsame : Interchangeable leap plain := Or.inl (by decide)
  constructor
  · exact hconditions.mpr hsame .day (by decide) [.lastDay]
  · exact (hverdicts fun f => by cases f <;> rfl).mpr hsame s

/-- The last day of 2016 is not the last day of its month during its leap second, although the
second before differs from it in the nanoseconds alone. -/
theorem lastDay_leap_second :
    let leap : DateTime := ⟨⟨2016, 12, 31, by decide, by decide, by decide⟩,
      ⟨86399, 1000000000, by decide, by decide⟩⟩
    let plain : DateTime := ⟨⟨2016, 12, 31, by decide, by decide, by decide⟩,
      ⟨86399, 0, by decide, by decide⟩⟩
    Condition.anyHolds gregorian leap .day [.lastDay] = .ok false ∧
      Condition.anyHolds gregorian plain .day [.lastDay] = .ok true := by
  intro leap plain
  constructor
  · rfl
  · rfl

/-- So the date alone does not decide the conditions on it, nor the fields a verdict. -/
theorem not_forall_sameDate_agree :
    ¬ (∀ x y : DateTime, x.date = y.date → ∀ f ∈ dateFields, ∀ conditions,
        Condition.anyHolds gregorian x f conditions
          = Condition.anyHolds gregorian y f conditions) ∧
      ¬ (∀ x y : DateTime, (∀ f, gregorian.field x f = gregorian.field y f) →
        ∀ s : Schedule, (s.evaluate gregorian x).result = (s.evaluate gregorian y).result) := by
  obtain ⟨hleap, hplain⟩ := lastDay_leap_second
  constructor
  · intro h
    refine absurd (hleap.symm.trans ((h _ _ ?_ .day ?_ [.lastDay]).trans hplain)) nofun
    · rfl
    · decide
  · intro h
    rw [← Schedule.result_only] at hleap hplain
    refine absurd (hleap.symm.trans ((h _ _ (fun f => ?_) (.only .day [.lastDay])).trans hplain))
      nofun
    cases f <;> rfl

end Gregorian

end Recurrence
