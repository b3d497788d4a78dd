/-
# How far a walk back reaches

The searches back from the end of a month count their steps and do not look at the month.  So on a
table they find the latest day that they look for among the 31 days up to the end of the month
(`UniformCalendar.searchBack_namesLatest`).  Where the month is shorter that may be a day before it,
and then it is named by its number in another month.

`UniformCalendar.NamesLatest` says that an outcome names the latest of some days.  The latest day in
reach is that of the month exactly if a day in reach entails one in the month
(`UniformCalendar.NamesLatest.daysOfMonth_iff`).  A month that is no shorter than the week has this
property for everything that the weekday numbers decide (`UniformCalendar.daysOfMonth_nonempty`); a
month of five days in weeks of seven has not.
-/
import Mathlib.Data.Int.LeastGreatest
import Mathlib.Order.Bounds.Basic
import Recurrence.Proofs.Uniform.Month

namespace Recurrence

namespace UniformCalendar

variable {U : UniformCalendar} {t u v : Int} {q : Int → Prop} {days : Set Int}
  {r : Except Fault (Option Int32)}

/-! ## Days of a month and days in reach -/

/-- The days of the month of `t` with a property. -/
def daysOfMonth (U : UniformCalendar) (t : Int) (q : Int → Prop) : Set Int :=
  {u | u ∈ U.monthDays t ∧ q u}

/-- The days with a property among those that a walk back from the end of the month of `t`
visits. -/
def daysInReach (U : UniformCalendar) (t : Int) (q : Int → Prop) : Set Int :=
  {u | (U.lastDay t - Calendar.longestMonth < u ∧ u ≤ U.lastDay t) ∧ q u}

theorem mem_daysOfMonth_iff :
    u ∈ U.daysOfMonth t q ↔ (U.firstDay t ≤ u ∧ u ≤ U.lastDay t) ∧ q u := by
  rw [← monthIndex_eq_iff, ← mem_monthDays]
  exact Iff.rfl

theorem mem_daysInReach_iff :
    u ∈ U.daysInReach t q ↔ (U.lastDay t - 31 < u ∧ u ≤ U.lastDay t) ∧ q u := Iff.rfl

/-- A walk of 31 days reaches the whole month. -/
theorem daysOfMonth_subset (hlong : U.monthLength ≤ 31) :
    U.daysOfMonth t q ⊆ U.daysInReach t q := by
  intro u hu
  rw [mem_daysOfMonth_iff, lastDay] at hu
  rw [mem_daysInReach_iff, lastDay]
  exact ⟨by omega, hu.2⟩

/-- Of finitely many days there is a latest one. -/
theorem exists_isGreatest_daysInReach (h : (U.daysInReach t q).Nonempty) :
    ∃ u, IsGreatest (U.daysInReach t q) u :=
  Int.exists_greatest_of_bdd ⟨U.lastDay t, fun _ hu => hu.1.2⟩ h

/-- If the month has one of the days, its latest one is the latest in reach. -/
theorem isGreatest_daysOfMonth_iff (hlong : U.monthLength ≤ 31)
    (h : (U.daysOfMonth t q).Nonempty) :
    IsGreatest (U.daysOfMonth t q) u ↔ IsGreatest (U.daysInReach t q) u := by
  constructor
  · rintro ⟨hu, hlast⟩
    refine ⟨daysOfMonth_subset hlong hu, ?_⟩
    intro v hv
    by_cases hfirst : U.firstDay t ≤ v
    · exact hlast (mem_daysOfMonth_iff.mpr ⟨⟨hfirst, hv.1.2⟩, hv.2⟩)
    · have hmem := mem_daysOfMonth_iff.mp hu
      omega
  · rintro ⟨hu, hlast⟩
    refine ⟨?_, fun v hv => hlast (daysOfMonth_subset hlong hv)⟩
    obtain ⟨v, hv⟩ := h
    have hle := hlast (daysOfMonth_subset hlong hv)
    have hmem := mem_daysOfMonth_iff.mp hv
    exact mem_daysOfMonth_iff.mpr ⟨⟨by omega, hu.1.2⟩, hu.2⟩

/-! ## Naming the latest day -/

/-- The outcome of a search names the latest of some days, by its number in its own month, and no
day if there are none. -/
structure NamesLatest (U : UniformCalendar) (days : Set Int) (r : Except Fault (Option Int32)) :
    Prop where
  some_iff : ∀ d : Int32,
    r = .ok (some d) ↔ ∃ u, IsGreatest days u ∧ d.toInt = u % U.monthLength + 1
  none_iff : r = .ok none ↔ days = ∅

namespace NamesLatest

/-- A walk that stops at the latest of the days names it. -/
theorem of_isGreatest (hlong : U.monthLength ≤ 31) (hu : IsGreatest days u)
    (hr : r = .ok (some (U.calendar.day u))) : U.NamesLatest days r := by
  rw [hr]
  constructor
  · intro d
    constructor
    · intro hd
      rw [← Option.some.inj (Except.ok.inj hd)]
      exact ⟨u, hu, toInt_day (by omega) u⟩
    · rintro ⟨v, hv, hd⟩
      rw [hv.unique hu, ← toInt_day (by omega) u, Int32.toInt_inj] at hd
      rw [hd]
  · exact iff_of_false nofun (Set.nonempty_iff_ne_empty.mp ⟨u, hu.1⟩)

/-- A walk that finds nothing names the latest of no days. -/
theorem of_empty (hr : r = .ok none) (hdays : days = ∅) : U.NamesLatest days r := by
  rw [hr, hdays]
  refine ⟨fun d => iff_of_false nofun ?_, iff_of_true rfl rfl⟩
  rintro ⟨u, hu, -⟩
  exact hu.1

/-- **When the latest day in reach is that of the month.** -/
theorem daysOfMonth_iff (hlong : U.monthLength ≤ 31) (h : U.NamesLatest (U.daysInReach t q) r) :
    U.NamesLatest (U.daysOfMonth t q) r ↔
      ((U.daysInReach t q).Nonempty → (U.daysOfMonth t q).Nonempty) := by
  constructor
  · intro hmonth hne
    rw [Set.nonempty_iff_ne_empty, ne_eq, ← hmonth.none_iff, h.none_iff]
    exact Set.nonempty_iff_ne_empty.mp hne
  · intro hne
    rcases (U.daysOfMonth t q).eq_empty_or_nonempty with hempty | hmonth
    · refine of_empty (h.none_iff.mpr ?_) hempty
      by_contra hreach
      have hne' := hne (Set.nonempty_iff_ne_empty.mpr hreach)
      rw [hempty] at hne'
      exact Set.not_nonempty_empty hne'
    · constructor
      · intro d
        rw [h.some_iff d]
        simp only [isGreatest_daysOfMonth_iff hlong hmonth]
      · refine h.none_iff.trans (iff_of_false ?_ ?_)
        · exact Set.nonempty_iff_ne_empty.mp (hmonth.mono (daysOfMonth_subset hlong))
        · exact Set.nonempty_iff_ne_empty.mp hmonth

end NamesLatest

/-! ## Weekday numbers -/

/-- The numbers come round with the week. -/
theorem weekday_eq_of_emod_eq (h : u % U.week.length = v % U.week.length) :
    U.weekday u = U.weekday v := by
  have hindex : U.weekIndex u = U.weekIndex v := Fin.ext (congrArg Int.toNat h)
  rw [weekday, weekday, hindex]

/-- With numbers from 1 to 7 the two ways to fall on a weekday agree. -/
theorem fallsOn_iff (hweek : ∀ number ∈ U.week, 1 ≤ number ∧ number ≤ 7) (w : Int32) (u : Int) :
    U.calendar.FallsOn w u ↔ Calendar.SameWeekday (U.weekday u) w := by
  obtain ⟨h₁, h₇⟩ := hweek (U.weekday u) (List.get_mem _ _)
  have hnumber : 1 ≤ (U.weekday u).toNat ∧ (U.weekday u).toNat ≤ 7 :=
    ⟨UInt32.le_iff_toNat_le.mp h₁, UInt32.le_iff_toNat_le.mp h₇⟩
  exact Calendar.fallsOn_iff hnumber w

/-- A month that is no shorter than the week has a day of every weekday number that occurs. -/
theorem daysOfMonth_nonempty (hweek : U.week.length ≤ U.monthLength)
    (hq : ∀ u v, U.weekday u = U.weekday v → q u → q v) (h : (U.daysInReach t q).Nonempty) :
    (U.daysOfMonth t q).Nonempty := by
  obtain ⟨u, hu⟩ := h
  have hpos : 0 < (U.week.length : Int) :=
    Int.natCast_pos.mpr (List.length_pos_iff.mpr U.week_ne_nil)
  have h₁ := Int.emod_nonneg (u - U.firstDay t) (Int.ne_of_gt hpos)
  have h₂ := Int.emod_lt_of_pos (u - U.firstDay t) hpos
  -- the day as far into the month as `u` is into the weeks counted from the month's first day
  refine ⟨U.firstDay t + (u - U.firstDay t) % U.week.length, mem_daysOfMonth_iff.mpr ⟨?_, ?_⟩⟩
  · rw [lastDay]
    omega
  · refine hq u _ (weekday_eq_of_emod_eq ?_) hu.2
    rw [Int.add_emod_emod, show U.firstDay t + (u - U.firstDay t) = u by omega]

/-! ## The walks -/

/-- Where the table covers it, a run back from the end of the month goes on into the months
before. -/
theorem isRun_back (hreach : U.earliest ≤ U.lastDay t - 31 ∧ U.lastDay t ≤ U.latest) {n : Nat}
    (hn : n ≤ 31) : U.calendar.IsRun (-1) (fun i : Nat => U.lastDay t - i) n := by
  intro i hi
  have hstep : U.lastDay t - i + -1 = U.lastDay t - (i + 1 : Nat) := by omega
  show U.arrive (U.lastDay t - i + -1) = _
  rw [hstep]
  exact if_pos (by omega)

/-- **A walk back names the latest day in reach.** -/
theorem searchBack_namesLatest (hlong : U.monthLength ≤ 31)
    (hreach : U.earliest ≤ U.lastDay t - 31 ∧ U.lastDay t ≤ U.latest) {accept : UInt32 → Bool}
    (haccept : ∀ u, accept (U.weekday u) = true ↔ q u) :
    U.NamesLatest (U.daysInReach t q)
      (U.calendar.searchBack accept Calendar.longestMonth (U.lastDay t)) := by
  have hreject : ∀ i : Nat, ¬ q (U.lastDay t - i) →
      accept (U.calendar.weekday (U.lastDay t - i)) = false :=
    fun i hi => Bool.eq_false_iff.mpr fun hacc => hi ((haccept _).mp hacc)
  rcases (U.daysInReach t q).eq_empty_or_nonempty with hempty | hne
  · refine NamesLatest.of_empty ?_ hempty
    refine Calendar.searchBack_of_exhausted (p := fun i : Nat => U.lastDay t - i)
      (Int.sub_zero _) (isRun_back hreach (Nat.le_refl 31)) fun i hi => hreject i fun hq => ?_
    have hi' : i < 31 := hi
    have hmem : U.lastDay t - i ∈ U.daysInReach t q := mem_daysInReach_iff.mpr ⟨by omega, hq⟩
    rw [hempty] at hmem
    exact hmem
  · obtain ⟨u, hu⟩ := exists_isGreatest_daysInReach hne
    have hmem := mem_daysInReach_iff.mp hu.1
    obtain ⟨k, hk⟩ : ∃ k : Nat, U.lastDay t - k = u := ⟨(U.lastDay t - u).toNat, by omega⟩
    refine NamesLatest.of_isGreatest hlong hu ?_
    rw [← hk] at hmem ⊢
    refine Calendar.searchBack_of_accept (p := fun i : Nat => U.lastDay t - i) (Int.sub_zero _)
      (show k < 31 by omega) (isRun_back hreach (by omega)) (fun i hi => hreject i fun hq => ?_)
      ((haccept _).mpr hmem.2)
    -- a day that the walk accepted before would be a later one
    have hle := hu.2 (mem_daysInReach_iff.mpr ⟨by omega, hq⟩)
    omega

/-- A table with months of at most 31 days, at least two months a year and weekday numbers from 1 to
7 covers the month of `t` and the 31 days before it. -/
structure CoversWalksBack (U : UniformCalendar) (t : Int) : Prop where
  monthLength_le : U.monthLength ≤ 31
  monthsPerYear : 2 ≤ U.monthsPerYear ∧ U.monthsPerYear ≤ 2147483647
  week : ∀ number ∈ U.week, 1 ≤ number ∧ number ≤ 7
  reach : U.earliest ≤ U.firstDay t - 31 ∧ U.lastDay t ≤ U.latest

/-- The outcome of a search back from the end of the month of `t` for a day with a property: it
names the latest such day in reach, which is the latest one of the month exactly if a day in reach
entails one in the month, and is so if the week is no longer than the month. -/
structure WalksBack (U : UniformCalendar) (t : Int) (q : Int → Prop)
    (r : Except Fault (Option Int32)) : Prop where
  inReach : U.NamesLatest (U.daysInReach t q) r
  inMonth_iff : U.NamesLatest (U.daysOfMonth t q) r ↔
    ((U.daysInReach t q).Nonempty → (U.daysOfMonth t q).Nonempty)
  inMonth : U.week.length ≤ U.monthLength → U.NamesLatest (U.daysOfMonth t q) r

/-- A walk back inside the table finds the latest day in reach. -/
theorem CoversWalksBack.walksBack (h : U.CoversWalksBack t) {accept : UInt32 → Bool}
    (haccept : ∀ u, accept (U.weekday u) = true ↔ q u) :
    U.WalksBack t q
      (U.calendar.endOfMonth t >>= U.calendar.searchBack accept Calendar.longestMonth) := by
  have hfirst := U.firstDay_le t
  have hlast := U.le_lastDay t
  have hcover := h.reach
  have hreach : U.earliest ≤ U.lastDay t - 31 ∧ U.lastDay t ≤ U.latest := by omega
  have hend : U.calendar.endOfMonth t = .ok (U.lastDay t) := if_pos (by omega)
  have hnames := searchBack_namesLatest h.monthLength_le hreach haccept
  rw [hend]
  refine ⟨hnames, hnames.daysOfMonth_iff h.monthLength_le, fun hweek => ?_⟩
  apply (hnames.daysOfMonth_iff h.monthLength_le).mpr
  apply daysOfMonth_nonempty hweek
  intro u v huv hu
  rw [← haccept] at hu ⊢
  rwa [← huv]

/-- **Where the searches back from the end of a month arrive.**  The searches for the last day on a
weekday and for the last working day name the latest such day among the 31 days up to the end of the
month.  This is the latest one of the month exactly if a day in reach entails one in the month, as
it does if the week is no longer than the month. -/
theorem walks_back_from_month_end (h : U.CoversWalksBack t) :
    (∀ w, U.WalksBack t (U.calendar.FallsOn w) (U.calendar.lastWeekday t w)) ∧
      U.WalksBack t (fun u => Calendar.IsWorkday (U.weekday u)) (U.calendar.lastWorkday t) := by
  constructor
  · intro w
    refine h.walksBack fun u => ?_
    rw [decide_eq_true_eq, fallsOn_iff h.week]
  · exact h.walksBack fun u => decide_eq_true_iff

/-- A table with weeks of seven days and short months. -/
def shortMonths (n : Int) (hn : 0 < n) : UniformCalendar where
  monthLength := n
  monthsPerYear := 12
  week := [1, 2, 3, 4, 5, 6, 7]
  earliest := -1000
  latest := 1000
  fault := .invalidDate
  hour := 0
  minute := 0
  second := 0
  monthLength_pos := hn
  monthsPerYear_pos := by decide
  week_ne_nil := by decide

theorem week_shortMonths {n : Int} (hn : 0 < n) :
    ∀ number ∈ (shortMonths n hn).week, 1 ≤ number ∧ number ≤ 7 := by
  have hweek : List.Forall (fun number : UInt32 => 1 ≤ number ∧ number ≤ 7)
      [1, 2, 3, 4, 5, 6, 7] := by decide
  exact List.forall_iff_forall_mem.mp hweek

/-- Among months of five days, days 5 to 9 run from a Saturday to a Wednesday.  The search for the
last Wednesday stays with them, and the one for the last Friday goes on to the day before. -/
theorem walks_back_from_month_end_five_days :
    let U := shortMonths 5 (by decide)
    U.NamesLatest (U.daysOfMonth 7 (U.calendar.FallsOn 3)) (U.calendar.lastWeekday 7 3) ∧
      ¬ U.NamesLatest (U.daysOfMonth 7 (U.calendar.FallsOn 5)) (U.calendar.lastWeekday 7 5) := by
  intro U
  obtain ⟨hwalks, -⟩ := walks_back_from_month_end (U := U) (t := 7)
    ⟨by decide, by decide, week_shortMonths _, by decide⟩
  constructor
  · exact (hwalks 3).inMonth_iff.mpr fun _ => ⟨9, by decide, by decide⟩
  · intro hnames
    have hfriday : 4 ∈ U.daysInReach 7 (U.calendar.FallsOn 5) :=
      mem_daysInReach_iff.mpr ⟨by decide, by decide⟩
    obtain ⟨u, hu, hfalls⟩ := (hwalks 5).inMonth_iff.mp hnames ⟨4, hfriday⟩
    have hno : ∀ v ∈ U.monthDays 7, ¬ U.calendar.FallsOn 5 v := by decide
    exact hno u hu hfalls

/-- **A search back from the end of a month need not stay in it.**  The month of days 5 to 9 has no
Friday, and still its last Friday is found, on the fifth; days 26 and 27 are a weekend, and a
working day is found in that month of two days. -/
theorem not_forall_namesLatest_daysOfMonth :
    (¬ ∀ (U : UniformCalendar) (t : Int), U.CoversWalksBack t → ∀ w,
      U.NamesLatest (U.daysOfMonth t (U.calendar.FallsOn w)) (U.calendar.lastWeekday t w)) ∧
    ¬ ∀ (U : UniformCalendar) (t : Int), U.CoversWalksBack t →
      U.NamesLatest (U.daysOfMonth t fun u => Calendar.IsWorkday (U.weekday u))
        (U.calendar.lastWorkday t) := by
  constructor
  · intro h
    have hnames := h (shortMonths 5 (by decide)) 7
      ⟨by decide, by decide, week_shortMonths _, by decide⟩ 5
    obtain ⟨u, hu, -⟩ := (hnames.some_iff 5).mp rfl
    have hno : ∀ v ∈ (shortMonths 5 (by decide)).monthDays 7,
        ¬ (shortMonths 5 (by decide)).calendar.FallsOn 5 v := by decide
    exact hno u hu.1.1 hu.1.2
  · intro h
    have hnames := h (shortMonths 2 (by decide)) 26
      ⟨by decide, by decide, week_shortMonths _, by decide⟩
    obtain ⟨u, hu, -⟩ := (hnames.some_iff 2).mp rfl
    have hno : ∀ v ∈ (shortMonths 2 (by decide)).monthDays 26,
        ¬ Calendar.IsWorkday ((shortMonths 2 (by decide)).weekday v) := by decide
    exact hno u hu.1.1 hu.1.2

end UniformCalendar

end Recurrence
