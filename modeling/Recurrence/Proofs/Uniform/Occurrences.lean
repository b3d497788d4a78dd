/-
# Counting weekdays through a month

The search for the `n`th day on a weekday walks through the month and lowers a count.  On a table
nothing is known of the weekday numbers: they may leave weekdays out, repeat them or come round in
any period, and the month may be any month of up to 31 days.  `UniformCalendar.IsNthOn` says by
counting which day is meant, and the walk agrees with it (`UniformCalendar.isNthOn_onDay_iff`): what
it has counted on its way to a day are the earlier days of the month on the weekday
(`UniformCalendar.countP_earlier`).
-/
import Recurrence.Proofs.Uniform.Month

namespace Recurrence

/-- Of the first `n` numbers, those below `m` are the first `m`. -/
theorem countP_range_of_lt {m n : Nat} (h : m ≤ n) {p q : Nat → Bool}
    (hlt : ∀ i < m, p i = q i) (hge : ∀ i, m ≤ i → p i = false) :
    (List.range n).countP p = (List.range m).countP q := by
  obtain ⟨k, rfl⟩ := Nat.exists_eq_add_of_le h
  have hrest : ((List.range k).map (m + ·)).countP p = 0 := by
    rw [List.countP_map]
    apply List.countP_eq_zero.mpr
    intro i _
    exact Bool.eq_false_iff.mp (hge (m + i) (Nat.le_add_right m i))
  rw [List.range_add, List.countP_append, hrest, Nat.add_zero]
  apply List.countP_congr
  intro i hi
  rw [hlt i (List.mem_range.mp hi)]

namespace UniformCalendar

variable {U : UniformCalendar} {t : Int} {w : Int32} {n : Int} {m : Nat}

/-! ## Days by their place among the days of a weekday -/

/-- The number of the day is congruent to the weekday that a schedule writes as `w`, modulo
seven. -/
def OnWeekday (U : UniformCalendar) (w : Int32) (u : Int) : Prop :=
  (0 ≤ w.toInt ∧ w.toInt ≤ 7) ∧ ((U.weekday u).toNat : Int) % 7 = w.toInt % 7

instance (U : UniformCalendar) (w : Int32) (u : Int) : Decidable (U.OnWeekday w u) :=
  inferInstanceAs (Decidable (_ ∧ _))

/-- The day is on the weekday written `w`, and exactly `n - 1` smaller days of its month are. -/
def IsNthOn (U : UniformCalendar) (w : Int32) (n u : Int) : Prop :=
  U.OnWeekday w u ∧ ((U.monthDays u).countP fun v => v < u ∧ U.OnWeekday w v : Nat) = n - 1

instance (U : UniformCalendar) (w : Int32) (n u : Int) : Decidable (U.IsNthOn w n u) :=
  inferInstanceAs (Decidable (_ ∧ _))

section Weekdays

variable (hweek : ∀ number ∈ U.week, number.toNat < 2147483648)
include hweek

theorem sameWeekday_iff (w : Int32) (u : Int) :
    Calendar.SameWeekday (U.weekday u) w ↔ U.OnWeekday w u :=
  Calendar.sameWeekday_iff (hweek _ (List.get_mem _ _)) w

/-- The walk on counts the smaller days of the month. -/
theorem countP_earlier (hm : (m : Int) < U.monthLength) :
    (U.monthDays t).countP (fun v => v < U.onDay t m ∧ U.OnWeekday w v)
      = U.calendar.hits w (fun i : Nat => U.onDay t i) m := by
  rw [monthDays, Calendar.monthDays, List.countP_map, Calendar.hits]
  refine countP_range_of_lt (by omega) (fun i hi => ?_) (fun i hi => ?_)
  · have hlt : U.onDay t i < U.onDay t m := by
      unfold onDay
      omega
    show decide (U.onDay t i < U.onDay t m ∧ U.OnWeekday w (U.onDay t i)) = _
    rw [decide_eq_decide, and_iff_right hlt, ← sameWeekday_iff hweek]
    exact Iff.rfl
  · apply decide_eq_false
    intro h
    have hlt : U.onDay t i < U.onDay t m := h.1
    unfold onDay at hlt
    omega

/-- The `n`th day is the one that completes the count. -/
theorem isNthOn_onDay_iff (hm : (m : Int) < U.monthLength) :
    U.IsNthOn w n (U.onDay t m) ↔
      Calendar.SameWeekday (U.calendar.weekday (U.onDay t m)) w ∧
        n = U.calendar.hits w (fun i : Nat => U.onDay t i) m + 1 := by
  rw [IsNthOn, monthDays_of_monthIndex (monthIndex_of_mem (by omega)), countP_earlier hweek hm,
    ← sameWeekday_iff hweek]
  apply and_congr_right
  intro _
  omega

/-- So the days that complete the count are the `n`th days of the month. -/
theorem exists_isNthOn_iff (hlong : U.monthLength ≤ 31) (d : Int32) :
    (∃ u ∈ U.monthDays t, U.IsNthOn w n u ∧ d.toInt = u % U.monthLength + 1) ↔
      ∃ m : Nat, (m : Int) < U.monthLength ∧
        Calendar.SameWeekday (U.calendar.weekday (U.onDay t m)) w ∧
        n = U.calendar.hits w (fun i : Nat => U.onDay t i) m + 1 ∧
        U.calendar.day (U.onDay t m) = d := by
  have hday : ∀ u, d.toInt = u % U.monthLength + 1 ↔ U.calendar.day u = d := by
    intro u
    rw [← toInt_day (by omega), Int32.toInt_inj, eq_comm]
  constructor
  · rintro ⟨u, hu, hn, hd⟩
    obtain ⟨m, hm, rfl⟩ := exists_onDay hu
    obtain ⟨hw, hc⟩ := (isNthOn_onDay_iff hweek hm).mp hn
    exact ⟨m, hm, hw, hc, (hday _).mp hd⟩
  · rintro ⟨m, hm, hw, hc, hd⟩
    exact ⟨_, onDay_mem_monthDays hm, (isNthOn_onDay_iff hweek hm).mpr ⟨hw, hc⟩, (hday _).mpr hd⟩

end Weekdays

/-! ## The walk on -/

/-- **Days on a weekday are counted right.**  On every table with months of at most 31 days and two
months or more a year, whatever its weekday numbers below `2 ^ 31` are, the search for the `n`th day
on a weekday has an outcome if the table covers the month and the day after it.  The outcome is a
day exactly if the month has an `n`th day on the weekday, and then the number of that day. -/
theorem nthWeekday_counts_occurrences (hlong : U.monthLength ≤ 31)
    (hyear : 2 ≤ U.monthsPerYear ∧ U.monthsPerYear ≤ 2147483647)
    (hweek : ∀ number ∈ U.week, number.toNat < 2147483648)
    (hreach : U.earliest ≤ U.firstDay t ∧ U.lastDay t + 1 ≤ U.latest) (w : Int32) {nth : Int32}
    (hnth : nth ≠ 0) :
    ∃ r, U.calendar.nthWeekday t w nth = .ok r ∧
      ∀ d : Int32, r = some d ↔
        1 ≤ nth ∧
          ∃ u ∈ U.monthDays t, U.IsNthOn w nth.toInt u ∧ d.toInt = u % U.monthLength + 1 := by
  have hmonth := isMonth hreach.1 (by omega) hlong
  have hnext := hasNext hyear hreach.1 hreach.2
  have hplace : 0 ≤ t - U.firstDay t ∧ t - U.firstDay t < U.monthLength := by
    have h₁ := U.firstDay_le t
    have h₂ := U.le_lastDay t
    unfold lastDay at h₂
    omega
  obtain ⟨r, hr, hsome⟩ := hmonth.exists_nthWeekday hnext hplace hlong hnth (w := w)
  rw [U.onDay_sub_firstDay t t] at hr
  refine ⟨r, hr, fun d => ?_⟩
  rw [hsome d, exists_isNthOn_iff hweek hlong]
  constructor
  · rintro ⟨m, hm, hw, hc, hd⟩
    have hpos : (1 : Int32).toInt ≤ nth.toInt := by
      rw [show (1 : Int32).toInt = 1 from rfl]
      omega
    exact ⟨Int32.le_iff_toInt_le.mpr hpos, m, hm, hw, hc, hd⟩
  · rintro ⟨-, hm⟩
    exact hm

/-- In months of ten days and weeks of three, two of them numbered as Mondays, the fourth Monday of
days 10 to 19 is day 15, the sixth of its month. -/
theorem nthWeekday_counts_occurrences_two_mondays :
    let U : UniformCalendar := ⟨10, 2, [8, 1, 4], 0, 100, .invalidDate, 0, 0, 0,
      by decide, by decide, by decide⟩
    U.calendar.nthWeekday 13 1 4 = .ok (some 6) := by
  intro U
  have hweek : ∀ number ∈ U.week, number.toNat < 2147483648 :=
    List.forall_iff_forall_mem.mp (by decide)
  obtain ⟨r, hr, hday⟩ := nthWeekday_counts_occurrences (U := U) (t := 13) (by decide) (by decide)
    hweek (by decide) 1 (show (4 : Int32) ≠ 0 by decide)
  rw [hr, (hday 6).mpr ⟨by decide, 15, by decide, by decide, by decide⟩]

end UniformCalendar

end Recurrence
