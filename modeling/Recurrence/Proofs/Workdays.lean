/-
# Working days near a day and at the end of a month

The search near a day never compares distances: it goes one day towards the weekend's nearer end, or
two days the other way if the first step leaves the month.  On the Gregorian calendar it finds the
working day at the least distance, and it finds one in every month, because the calendar begins on
a Thursday and ends on a Monday (`Gregorian.nearestWorkday_is_nearest`).

Near the last day of a month this is the last working day, so it can be asked for in two ways: by an
anchor numbered at least as high as the month is long, or by the walk back from the month's end.
`Calendar.RoutesMeet` says that the two ways cannot be told apart, `IsMonth.routesMeet` shows it for
months with weeks of seven days, and `last_workday_both_ways` gathers both calendars.
-/
import Recurrence.Proofs.Gregorian.Searches
import Recurrence.Proofs.Uniform.BackwardWalks

namespace Recurrence

/-! ## Near a day -/

namespace Gregorian

variable {x : DateTime}

/-- **The search near a day finds the nearest working day of the month, and never fails.**  Away
from leap seconds every other working day of the month is further away from the day than the one
that is found, and the day itself is found exactly if it is a working day. -/
theorem nearestWorkday_is_nearest (hx : ¬ x.time.IsLeap) :
    ∃ (d : Int32) (e : Date), gregorian.nearestWorkday x = .ok d ∧ d.toInt = e.day ∧
      Date.IsNearestWorkday x.date e ∧ (d.toInt = x.date.day ↔ x.date.IsWorkday) := by
  obtain ⟨e, he, hfound⟩ := dates.exists_isNearestWorkday x.date
  refine ⟨dates.day e, e, ?_, dates.toInt_day e, he, ?_⟩
  · rw [gregorian_dates.nearestWorkday_eq (onDate_of_not_isLeap hx)]
    exact hfound
  · rw [dates.toInt_day]
    exact he.day_eq_iff

/-- June of 2024 began on a Saturday, so the search near its first day turns round to Monday the
third; the last date of the calendar is a Monday and needs no step. -/
theorem nearestWorkday_is_nearest_june :
    let june : DateTime := ⟨⟨2024, 6, 1, by decide, by decide, by decide⟩,
      ⟨43200, 0, by decide, by decide⟩⟩
    let last : DateTime := ⟨⟨262142, 12, 31, by decide, by decide, by decide⟩,
      ⟨86399, 999999999, by decide, by decide⟩⟩
    gregorian.nearestWorkday june = .ok 3 ∧ gregorian.nearestWorkday last = .ok 31 := by
  intro june last
  constructor
  · obtain ⟨d, e, hfound, hday, hnear, -⟩ := nearestWorkday_is_nearest (x := june) (by decide)
    have hmonday : Date.IsNearestWorkday june.date ⟨2024, 6, 3, by decide, by decide, by decide⟩ :=
      Date.isNearestWorkday_of_saturday (by decide) ⟨rfl, rfl⟩ rfl
    rw [hnear.unique hmonday] at hday
    rw [hfound, show d = 3 from Int32.toInt_inj.mp hday]
  · obtain ⟨d, e, hfound, -, -, hself⟩ := nearestWorkday_is_nearest (x := last) (by decide)
    have hday : d.toInt = 31 := hself.mpr (by decide)
    rw [hfound, show d = 31 from Int32.toInt_inj.mp hday]

end Gregorian

/-! ## Two ways to the last working day -/

variable {α β τ : Type}

namespace Calendar

variable {C : Calendar τ} {t last : τ} {n : Int}

/-- In the month of `t`, which has `n` days, the last working day can be asked for in two ways: near
a day numbered `n` or higher, and back from the end of the month. -/
structure RoutesMeet (C : Calendar τ) (t : τ) (n : Int) : Prop where
  holds_eq : ∀ d : Int32, n ≤ d.toInt → ∀ v,
    (Condition.nearestWorkday (.day d)).holds C t .day v
      = (Condition.nearestWorkday .lastDay).holds C t .day v
  /-- Both fail only if the month has no end, and then with its fault. -/
  fault_iff : ∀ v e,
    (Condition.nearestWorkday .lastDay).holds C t .day v = .error e ↔ C.endOfMonth t = .error e
  /-- The working day nearest to the end of the month is the last one. -/
  lastWorkday_eq : ∀ last, C.endOfMonth t = .ok last →
    ∃ k, C.nearestWorkday last = .ok k ∧ C.lastWorkday t = .ok (some k)

namespace RoutesMeet

/-- Both ways begin with the end of the month, so they meet in its fault. -/
theorem of_error {e : Fault} (hend : C.endOfMonth t = .error e) : C.RoutesMeet t n := by
  have hback : ∀ v, (Condition.nearestWorkday .lastDay).holds C t .day v = .error e := by
    intro v
    rw [Condition.holds, if_pos rfl, Condition.isNearestWorkday, lastWorkday, hend]
    rfl
  constructor
  case holds_eq =>
    intro d _ v
    rw [hback, Condition.holds, if_pos rfl, Condition.isNearestWorkday, anchorDay, hend]
    rfl
  case fault_iff =>
    intro v e'
    rw [hback, hend, Except.error.injEq, Except.error.injEq]
  case lastWorkday_eq =>
    intro last hlast
    rw [hend] at hlast
    cases hlast

/-- They meet in a day if the anchors are the last day and the walk back stops at the day near
it. -/
theorem of_ok {k : Int32} (hend : C.endOfMonth t = .ok last)
    (hanchor : ∀ d : Int32, n ≤ d.toInt → C.anchorDay t d = .ok last)
    (hnear : C.nearestWorkday last = .ok k) (hback : C.lastWorkday t = .ok (some k)) :
    C.RoutesMeet t n := by
  have hholds : ∀ v,
      (Condition.nearestWorkday .lastDay).holds C t .day v = .ok (k = C.day t) := by
    intro v
    rw [Condition.holds, if_pos rfl, Condition.isNearestWorkday, hback]
    show Except.ok (decide (some k = some (C.day t))) = _
    simp only [Option.some.injEq]
  constructor
  case holds_eq =>
    intro d hd v
    rw [hholds, Condition.holds, if_pos rfl, Condition.isNearestWorkday, hanchor d hd]
    show (do return (← C.nearestWorkday last) = C.day t : Except Fault Bool) = _
    rw [hnear]
    rfl
  case fault_iff =>
    intro v e
    rw [hholds, hend]
    simp only [reduceCtorEq]
  case lastWorkday_eq =>
    intro last' hlast
    rw [← Except.ok.inj (hend.symm.trans hlast)]
    exact ⟨k, hnear, hback⟩

end RoutesMeet

namespace IsMonth

variable {p : Int → τ} {first i : Int}

/-- **Near the last day of a month the last working day is found**, one or two days earlier if the
month ends with a weekend. -/
theorem exists_lastWorkday (h : C.IsMonth p n) (hend : C.HasEnd p n) (hweeks : C.InWeeks p n first)
    (hn : 3 ≤ n) (hnext : C.weekday (p (n - 1)) = sunday → C.HasNext p n) (hi : 0 ≤ i ∧ i < n) :
    ∃ k, C.nearestWorkday (p (n - 1)) = .ok k ∧ C.lastWorkday (p i) = .ok (some k) := by
  have hlast : 0 ≤ n - 1 ∧ n - 1 < n := by omega
  have hsun := hweeks.eq_sunday_iff hlast
  have hsat := hweeks.eq_saturday_iff hlast
  -- the walk back stops at day `k` if that is a working day and the days after it are none
  have hback : ∀ k, (0 ≤ k ∧ k < n) → n ≤ k + 31 → (first + k) % 7 ≤ 4 →
      (∀ j, k < j ∧ j < n → 4 < (first + j) % 7) →
      C.lastWorkday (p i) = .ok (some (C.day (p k))) := by
    intro k hk hlong hyes hno
    refine h.lastWorkday_eq hend hi hk hlong (fun j hj => ?_) ((hweeks.isWorkday_iff hk).mpr hyes)
    rw [hweeks.isWorkday_iff (by omega)]
    exact Int.not_le.mpr (hno j hj)
  by_cases h7 : C.weekday (p (n - 1)) = sunday
  · have hnear := h.nearestWorkday_of_sunday hn hlast h7 (fun _ => hnext h7)
    rw [if_neg (Int.lt_irrefl _)] at hnear
    have hmod := hsun.mp h7
    exact ⟨_, hnear, hback _ (by omega) (by omega) (by omega) (fun j hj => by omega)⟩
  · by_cases h6 : C.weekday (p (n - 1)) = saturday
    · have hnear := h.nearestWorkday_of_saturday hn hlast h6 (fun hfirst => by omega)
      rw [if_pos (by omega)] at hnear
      have hmod := hsat.mp h6
      exact ⟨_, hnear, hback _ (by omega) (by omega) (by omega) (fun j hj => by omega)⟩
    · have hnear : C.nearestWorkday (p (n - 1)) = .ok (C.day (p (n - 1))) := by
        rw [nearestWorkday, if_neg h7, if_neg h6]
      rw [hsun] at h7
      rw [hsat] at h6
      exact ⟨_, hnear, hback _ hlast (by omega) (by omega) (fun j hj => by omega)⟩

/-- In a month of three days or more the two ways meet. -/
theorem routesMeet (h : C.IsMonth p n) (hend : C.HasEnd p n) (hweeks : C.InWeeks p n first)
    (hn : 3 ≤ n) (hnext : C.weekday (p (n - 1)) = sunday → C.HasNext p n) (hi : 0 ≤ i ∧ i < n) :
    C.RoutesMeet (p i) n := by
  obtain ⟨k, hnear, hback⟩ := h.exists_lastWorkday hend hweeks hn hnext hi
  refine RoutesMeet.of_ok (hend i hi) (fun d hd => ?_) hnear hback
  rw [h.anchorDay_eq hend hi (by omega), Int.min_eq_right hd]

end IsMonth

end Calendar

/-! ## Both calendars -/

/-- The two ways meet alike on related calendars. -/
theorem DateSimulation.routesMeet {A : Calendar α} {B : Calendar β} {R : α → β → Prop}
    (h : DateSimulation A B R) {a : α} {b : β} (hab : R a b) {n : Int} (hb : B.RoutesMeet b n) :
    A.RoutesMeet a n := by
  rcases (h.endOfMonth hab).cases with ⟨e, hA, -⟩ | ⟨a', b', hA, hB, hab'⟩
  · exact Calendar.RoutesMeet.of_error hA
  · constructor
    case holds_eq =>
      intro d hd v
      rw [h.holds_eq hab, h.holds_eq hab, hb.holds_eq d hd]
    case fault_iff =>
      intro v e
      rw [h.holds_eq hab, hb.fault_iff, hA, hB]
      exact iff_of_false nofun nofun
    case lastWorkday_eq =>
      intro last hlast
      rw [← Except.ok.inj (hA.symm.trans hlast), h.nearestWorkday_eq hab', h.lastWorkday_eq hab]
      exact hb.lastWorkday_eq b' hB

theorem dates.routesMeet (d : Date) : dates.RoutesMeet d d.lengthOfMonth := by
  by_cases hl : d.IsLastMonth
  · exact Calendar.RoutesMeet.of_error (endOfMonth_eq_error hl)
  · have hlen := d.lengthOfMonth_bounds
    have hday : 1 ≤ d.day ∧ d.day ≤ d.lengthOfMonth := d.day_mem
    have hmeet := (isMonth d).routesMeet (hasEnd hl) (inWeeks d) (by omega) (fun _ => hasNext hl)
      (i := d.day - 1) (by omega)
    rwa [daysLater_day_sub_one (Date.SameMonth.refl d)] at hmeet

/-- Away from leap seconds only the very last month has no end. -/
theorem Gregorian.endOfMonth_eq {x : DateTime} (hx : ¬ x.time.IsLeap) :
    gregorian.endOfMonth x = if x.date.IsLastMonth then .error .invalidDate
      else .ok ⟨x.date.lastOfMonth, x.time⟩ := by
  by_cases hl : x.date.IsLastMonth
  · rw [if_pos hl]
    exact endOfMonth_of_isLastMonth hl
  · rw [if_neg hl]
    exact arrive_eq_ok_iff.mpr ((endOfMonth?_eq_some_iff hx).mpr ⟨hl, rfl⟩)

/-- **The last working day can be asked for in two ways**, near a day beyond the month or its last
one, and back from the end of the month: on the Gregorian calendar away from leap seconds, where
both fail in the very last month, and on the calendar of every table with months of three days or
more, at least two months a year and weeks from Monday to Sunday, in every month that lies in the
table with the day after it. -/
theorem last_workday_both_ways :
    (∀ x : DateTime, ¬ x.time.IsLeap →
      gregorian.endOfMonth x = (if x.date.IsLastMonth then .error .invalidDate
        else .ok ⟨x.date.lastOfMonth, x.time⟩) ∧
      gregorian.RoutesMeet x x.date.lengthOfMonth) ∧
    (∀ (U : UniformCalendar) (t : Int), 3 ≤ U.monthLength ∧ U.monthLength ≤ 2147483647 →
      2 ≤ U.monthsPerYear ∧ U.monthsPerYear ≤ 2147483647 →
      U.week.IsRotated [1, 2, 3, 4, 5, 6, 7] →
      U.earliest ≤ U.firstDay t ∧ U.lastDay t + 1 ≤ U.latest →
      U.calendar.endOfMonth t = .ok (U.lastDay t) ∧
      U.calendar.RoutesMeet t U.monthLength) := by
  constructor
  · intro x hx
    have honDate := Gregorian.onDate_of_not_isLeap hx
    exact ⟨Gregorian.endOfMonth_eq hx,
      Gregorian.gregorian_dates.routesMeet honDate (dates.routesMeet x.date)⟩
  · intro U t hlen hyear hweek hreach
    have hlast : U.lastDay t ≤ U.latest := by omega
    have hplace : 0 ≤ t - U.firstDay t ∧ t - U.firstDay t < U.monthLength := by
      have h₁ := U.firstDay_le t
      have h₂ := U.le_lastDay t
      unfold UniformCalendar.lastDay at h₂
      omega
    obtain ⟨first, hweeks⟩ := UniformCalendar.exists_inWeeks hweek t
    have hmeet := (UniformCalendar.isMonth_of_le hreach.1 hlast hlen.2).routesMeet
      (UniformCalendar.hasEnd hreach.1 hlast) hweeks hlen.1
      (fun _ => UniformCalendar.hasNext hyear hreach.1 hreach.2) hplace
    rw [U.onDay_sub_firstDay t t] at hmeet
    refine ⟨if_pos ?_, hmeet⟩
    have h₁ := U.firstDay_le t
    have h₂ := U.le_lastDay t
    omega

/-- June of 2024 ended on a Sunday, so its last working day is Friday the 28th, whether one asks for
it by the number 30, where the month ends, or by one beyond it.  Among months of three days, days 18
to 20 are a Friday with its weekend. -/
theorem last_workday_both_ways_june :
    let june : DateTime := ⟨⟨2024, 6, 10, by decide, by decide, by decide⟩,
      ⟨43200, 0, by decide, by decide⟩⟩
    let table := UniformCalendar.shortMonths 3 (by decide)
    gregorian.lastWorkday june = .ok (some 28) ∧
      (∀ d : Int32, 30 ≤ d → (Condition.nearestWorkday (.day d)).holds gregorian june .day 10
        = (Condition.nearestWorkday .lastDay).holds gregorian june .day 10) ∧
      table.calendar.lastWorkday 19 = .ok (some 1) := by
  intro june table
  obtain ⟨hgregorian, htable⟩ := last_workday_both_ways
  obtain ⟨hend, hmeet⟩ := hgregorian june (by decide)
  refine ⟨?_, ?_, ?_⟩
  · rw [if_neg (by decide)] at hend
    obtain ⟨k, hnear, hback⟩ := hmeet.lastWorkday_eq _ hend
    have hfriday : gregorian.nearestWorkday ⟨june.date.lastOfMonth, june.time⟩ = .ok 28 := by
      decide +kernel
    rw [hback, Except.ok.inj (hnear.symm.trans hfriday)]
  · intro d hd
    exact hmeet.holds_eq d (Int32.le_iff_toInt_le.mp hd) 10
  · obtain ⟨hend', hmeet'⟩ := htable table 19 (by decide) (by decide) ⟨0, rfl⟩ (by decide)
    obtain ⟨k, hnear, hback⟩ := hmeet'.lastWorkday_eq _ hend'
    have hfriday : table.calendar.nearestWorkday (table.lastDay 19) = .ok 1 := by decide
    rw [hback, Except.ok.inj (hnear.symm.trans hfriday)]

end Recurrence
