/-
# The months of a table

All months of a table have the same number of days, so a month is told by its index, and its days
are those with that index (`UniformCalendar.mem_monthDays`).  Months next to each other have
different numbers as soon as a year has two of them (`UniformCalendar.month_ne_of_succ`).

Where the table covers them, the days of a month are a month for the searches
(`UniformCalendar.isMonth`), with an end, and with a month after and before it if the table reaches
one day further (`hasEnd`, `hasNext`, `hasPrevious`).  Of the weekday numbers nothing is assumed,
except in the last section, where the list of the week runs from Monday to Sunday in some rotation
(`UniformCalendar.exists_inWeeks`).
-/
import Mathlib.Data.List.Rotate
import Recurrence.Calendar.Uniform
import Recurrence.Proofs.Firing

namespace Recurrence

namespace UniformCalendar

variable {U : UniformCalendar} {t u i k : Int}

/-! ## The days of a month -/

/-- The day of the month of `t` after `i` others; it may lie beyond the month. -/
def onDay (U : UniformCalendar) (t i : Int) : Int := U.firstDay t + i

/-- The days of the month of `t`. -/
def monthDays (U : UniformCalendar) (t : Int) : List Int :=
  Calendar.monthDays (U.onDay t) U.monthLength

/-- Places outside the month belong to the months around it. -/
theorem monthIndex_onDay (U : UniformCalendar) (t i : Int) :
    U.monthIndex (U.onDay t i) = i / U.monthLength + U.monthIndex t := by
  have hpos := U.monthLength_pos
  rw [onDay, monthIndex, firstDay, Int.add_comm, Int.add_mul_ediv_right _ _ (by omega)]

/-- Places inside the month belong to it. -/
theorem monthIndex_of_mem (hi : 0 ≤ i ∧ i < U.monthLength) :
    U.monthIndex (U.onDay t i) = U.monthIndex t := by
  rw [monthIndex_onDay, Int.ediv_eq_zero_of_lt hi.1 hi.2, Int.zero_add]

theorem firstDay_of_monthIndex (h : U.monthIndex u = U.monthIndex t) :
    U.firstDay u = U.firstDay t := by
  rw [firstDay, h, firstDay]

/-- Every day has its place, counted from the first day of a month. -/
theorem onDay_sub_firstDay (U : UniformCalendar) (t u : Int) :
    U.onDay t (u - U.firstDay t) = u := by
  unfold onDay
  omega

/-- Days of one month lie between its ends. -/
theorem monthIndex_eq_iff :
    U.monthIndex u = U.monthIndex t ↔ U.firstDay t ≤ u ∧ u ≤ U.lastDay t := by
  constructor
  · intro hu
    have h₁ := U.firstDay_le u
    have h₂ := U.le_lastDay u
    rw [lastDay, firstDay_of_monthIndex hu] at h₂
    rw [firstDay_of_monthIndex hu] at h₁
    exact ⟨h₁, h₂⟩
  · intro hu
    unfold lastDay at hu
    rw [← U.onDay_sub_firstDay t u]
    exact monthIndex_of_mem (by omega)

/-- The days of a month are all those with its index. -/
theorem mem_monthDays : u ∈ U.monthDays t ↔ U.monthIndex u = U.monthIndex t := by
  rw [monthDays, Calendar.mem_monthDays]
  constructor
  · rintro ⟨i, hi, rfl⟩
    exact monthIndex_of_mem hi
  · intro hu
    have hends := monthIndex_eq_iff.mp hu
    unfold lastDay at hends
    exact ⟨u - U.firstDay t, by omega, U.onDay_sub_firstDay t u⟩

theorem onDay_mem_monthDays {m : Nat} (hm : (m : Int) < U.monthLength) :
    U.onDay t m ∈ U.monthDays t :=
  mem_monthDays.mpr (monthIndex_of_mem (by omega))

/-- Every day of a month comes after some others. -/
theorem exists_onDay (hu : u ∈ U.monthDays t) :
    ∃ m : Nat, (m : Int) < U.monthLength ∧ U.onDay t m = u := by
  obtain ⟨m, hm, rfl⟩ := List.mem_map.mp hu
  exact ⟨m, by have := List.mem_range.mp hm; omega, rfl⟩

/-- Days of one month have the same days around them. -/
theorem monthDays_of_monthIndex (h : U.monthIndex u = U.monthIndex t) :
    U.monthDays u = U.monthDays t := by
  have hdays : U.onDay u = U.onDay t := funext fun i => congrArg (· + i) (firstDay_of_monthIndex h)
  rw [monthDays, hdays, monthDays]

/-- Days are numbered from 1 on in every month; 32 bits hold the numbers. -/
theorem toInt_day (hword : U.monthLength ≤ 2147483647) (u : Int) :
    (U.calendar.day u).toInt = u % U.monthLength + 1 := by
  have h₁ := Int.emod_nonneg u (Int.ne_of_gt U.monthLength_pos)
  have h₂ := Int.emod_lt_of_pos u U.monthLength_pos
  exact Int32.toInt_ofInt_of_le (by omega) (by omega)

/-- The place of a day in the month is its remainder. -/
theorem emod_onDay (hi : 0 ≤ i ∧ i < U.monthLength) : U.onDay t i % U.monthLength = i := by
  rw [onDay, firstDay, Int.add_comm, Int.add_mul_emod_self_right, Int.emod_eq_of_lt hi.1 hi.2]

/-- Months next to each other have different numbers in a year of two months or more. -/
theorem month_ne_of_succ (hyear : 2 ≤ U.monthsPerYear ∧ U.monthsPerYear ≤ 2147483647)
    (h : U.monthIndex u = U.monthIndex t + 1) : U.calendar.month u ≠ U.calendar.month t := by
  intro hm
  have hu₁ := Int.emod_nonneg (U.monthIndex u) (show U.monthsPerYear ≠ 0 by omega)
  have hu₂ := Int.emod_lt_of_pos (U.monthIndex u) U.monthsPerYear_pos
  have ht₁ := Int.emod_nonneg (U.monthIndex t) (show U.monthsPerYear ≠ 0 by omega)
  have ht₂ := Int.emod_lt_of_pos (U.monthIndex t) U.monthsPerYear_pos
  have heq := (int32_ofInt_eq_iff (by omega) (by omega)).mp hm
  have hdvd : U.monthsPerYear ∣ U.monthIndex u - U.monthIndex t :=
    Int.dvd_of_emod_eq_zero (Int.emod_eq_emod_iff_emod_sub_eq_zero.mp (by omega))
  rw [h, show U.monthIndex t + 1 - U.monthIndex t = 1 by omega] at hdvd
  have hle := Int.le_of_dvd (by omega) hdvd
  omega

/-! ## Months for the searches -/

/-- A step to a day that the table covers. -/
theorem shiftDays_onDay (h : U.earliest ≤ U.onDay t k ∧ U.onDay t k ≤ U.latest) :
    U.calendar.shiftDays (U.onDay t i) (k - i) = .ok (U.onDay t k) := by
  have hk : U.onDay t i + (k - i) = U.onDay t k := by
    unfold onDay
    omega
  show U.arrive (U.onDay t i + (k - i)) = _
  rw [hk]
  exact if_pos h

section Month

variable (hfirst : U.earliest ≤ U.firstDay t) (hlast : U.lastDay t ≤ U.latest)
include hfirst hlast

/-- The table covers the month. -/
theorem onDay_mem (hi : 0 ≤ i ∧ i < U.monthLength) :
    U.earliest ≤ U.onDay t i ∧ U.onDay t i ≤ U.latest := by
  unfold lastDay at hlast
  unfold onDay
  omega

/-- A month of a table is one for the searches, if the table covers it and words number its days. -/
theorem isMonth_of_le (hword : U.monthLength ≤ 2147483647) :
    U.calendar.IsMonth (U.onDay t) U.monthLength where
  nonempty := U.monthLength_pos
  day i hi := by rw [toInt_day hword, emod_onDay hi]
  month i hi := by
    have hpos := U.monthLength_pos
    show Int32.ofInt _ = Int32.ofInt _
    rw [monthIndex_of_mem hi, monthIndex_of_mem (i := 0) (by omega)]
  beginningOfMonth i hi := by
    have hpos := U.monthLength_pos
    have hzero : U.firstDay t = U.onDay t 0 := (Int.add_zero _).symm
    show U.arrive (U.firstDay (U.onDay t i)) = _
    rw [firstDay_of_monthIndex (monthIndex_of_mem hi), hzero]
    exact if_pos (onDay_mem hfirst hlast (by omega))
  shiftDays i k _ hk := shiftDays_onDay (onDay_mem hfirst hlast hk)

theorem isMonth (hlong : U.monthLength ≤ 31) : U.calendar.IsMonth (U.onDay t) U.monthLength :=
  isMonth_of_le hfirst hlast (by omega)

/-- A month that the table covers has an end. -/
theorem hasEnd : U.calendar.HasEnd (U.onDay t) U.monthLength := by
  have hpos := U.monthLength_pos
  have hend : U.lastDay t = U.onDay t (U.monthLength - 1) := by
    unfold lastDay onDay
    omega
  intro i hi
  show U.arrive (U.lastDay (U.onDay t i)) = _
  rw [lastDay, firstDay_of_monthIndex (monthIndex_of_mem hi), ← lastDay, hend]
  exact if_pos (onDay_mem hfirst hlast (by omega))

end Month

theorem hasNext (hyear : 2 ≤ U.monthsPerYear ∧ U.monthsPerYear ≤ 2147483647)
    (hfirst : U.earliest ≤ U.firstDay t) (hlast : U.lastDay t + 1 ≤ U.latest) :
    U.calendar.HasNext (U.onDay t) U.monthLength := by
  have hpos := U.monthLength_pos
  constructor
  · have hs := shiftDays_onDay (U := U) (t := t) (i := U.monthLength - 1) (k := U.monthLength) (by
      unfold lastDay at hlast
      unfold onDay
      omega)
    rwa [show U.monthLength - (U.monthLength - 1) = 1 by omega] at hs
  · apply month_ne_of_succ hyear
    rw [monthIndex_of_mem (i := 0) (by omega), monthIndex_onDay, Int.ediv_self (by omega),
      Int.add_comm]

theorem hasPrevious (hyear : 2 ≤ U.monthsPerYear ∧ U.monthsPerYear ≤ 2147483647)
    (hfirst : U.earliest ≤ U.firstDay t - 1) (hlast : U.lastDay t ≤ U.latest) :
    U.calendar.HasPrevious (U.onDay t) := by
  have hpos := U.monthLength_pos
  constructor
  · apply shiftDays_onDay (i := 0) (k := -1)
    unfold lastDay at hlast
    unfold onDay
    omega
  · apply (month_ne_of_succ hyear _).symm
    rw [monthIndex_of_mem (by omega), monthIndex_onDay,
      Int.ediv_eq_neg_one_of_neg_of_le (by omega) (by omega)]
    omega

/-! ## Weeks of seven days -/

/-- The weekday numbers go round in their order, whichever the list begins with. -/
theorem exists_inWeeks (hweek : U.week.IsRotated [1, 2, 3, 4, 5, 6, 7]) (t : Int) :
    ∃ first, U.calendar.InWeeks (U.onDay t) U.monthLength first := by
  obtain ⟨r, hr⟩ := hweek.symm
  have hlen : U.week.length = 7 := hweek.perm.length_eq
  refine ⟨U.firstDay t + r, ?_⟩
  intro i hi
  have hnumbers : ∀ j : Fin 7, (List.get [1, 2, 3, 4, 5, 6, 7] j : UInt32).toNat = j + 1 := by
    decide
  have hplace : U.weekday (U.onDay t i)
      = List.get [1, 2, 3, 4, 5, 6, 7]
          ⟨((U.weekIndex (U.onDay t i)).val + r) % 7, Nat.mod_lt _ (by decide)⟩ :=
    (List.getElem_of_eq hr.symm _).trans (List.getElem_rotate _ _ _ _)
  have hindex : ((U.weekIndex (U.onDay t i)).val : Int) = U.onDay t i % 7 := by
    show ((U.onDay t i % U.week.length).toNat : Int) = _
    rw [hlen]
    omega
  show ((U.weekday (U.onDay t i)).toNat : Int) = _
  rw [hplace, hnumbers]
  unfold onDay at hindex ⊢
  push_cast
  omega

end UniformCalendar

end Recurrence
