/-
# Calendars that cannot be told apart

Two calendars whose related moments agree on all seven fields, and whose steps keep them related
or fail alike, are exchangeable (`Simulation`): no schedule, no list of conditions and no search
tells them apart (`Simulation.indistinguishable`).

The Gregorian calendar at midnight and the calendar of dates are an example
(`Gregorian.midnight_dates`): a program that keeps dates only needs no clock.
-/
import Recurrence.Proofs.Gregorian.Dates

namespace Recurrence

variable {α β : Type}

/-! ## Simulations -/

/-- Related moments read alike on all fields, and every step keeps them related.  Neither calendar
has a way of its own to read the day of the month. -/
structure Simulation (A : Calendar α) (B : Calendar β) (R : α → β → Prop) : Prop where
  readsDay_left : A.ReadsDay
  readsDay_right : B.ReadsDay
  field : ∀ {a b}, R a b → ∀ f, A.field a f = B.field b f
  weekday : ∀ {a b}, R a b → A.weekday a = B.weekday b
  endOfMonth : ∀ {a b}, R a b → OutcomesAgree R (A.endOfMonth a) (B.endOfMonth b)
  beginningOfMonth : ∀ {a b}, R a b →
    OutcomesAgree R (A.beginningOfMonth a) (B.beginningOfMonth b)
  shiftDays : ∀ {a b} (n : Int64), R a b →
    OutcomesAgree R (A.shiftDays a n.toInt) (B.shiftDays b n.toInt)

/-- Calendars that agree on all fields agree on those of the date. -/
theorem Simulation.toDateSimulation {A : Calendar α} {B : Calendar β} {R : α → β → Prop}
    (h : Simulation A B R) : DateSimulation A B R where
  weekday := h.weekday
  day hab := by rw [h.readsDay_left, h.readsDay_right, h.field hab]
  month hab := h.field hab .month
  endOfMonth := h.endOfMonth
  beginningOfMonth := h.beginningOfMonth
  shiftDays := h.shiftDays

/-! ## At midnight -/

/-- The first moment of the day. -/
def TimeOfDay.midnight : TimeOfDay := ⟨0, 0, by decide, by decide⟩

namespace Gregorian

/-- The moment is the midnight with which a date begins. -/
def AtMidnight (x : DateTime) (d : Date) : Prop := x.date = d ∧ x.time = .midnight

/-- Midnight is no leap second. -/
theorem AtMidnight.not_isLeap {x : DateTime} {d : Date} (h : AtMidnight x d) :
    ¬ x.time.IsLeap := by
  rw [h.2]
  decide

theorem AtMidnight.onDate {x : DateTime} {d : Date} (h : AtMidnight x d) : OnDate x d :=
  ⟨h.1, fun hm => h.not_isLeap hm.1⟩

/-- **Midnights and dates run in step**, and read alike on all fields. -/
theorem midnight_dates : Simulation gregorian dates AtMidnight where
  readsDay_left _ := rfl
  readsDay_right _ := rfl
  field := by
    rintro ⟨d, t⟩ _ ⟨rfl, rfl⟩ f
    cases f <;> rfl
  weekday h := gregorian_dates.weekday h.onDate
  endOfMonth h := by
    refine (gregorian_dates.endOfMonth h.onDate).imp fun y e hy _ hye => ⟨hye.1, ?_⟩
    have hlast := (endOfMonth?_eq_some_iff h.not_isLeap).mp (arrive_eq_ok_iff.mp hy)
    rw [hlast.2]
    exact h.2
  beginningOfMonth h := by
    refine (gregorian_dates.beginningOfMonth h.onDate).imp fun y e hy _ hye => ⟨hye.1, ?_⟩
    rw [← Except.ok.inj hy]
    exact h.2
  shiftDays n h := by
    refine (gregorian_dates.shiftDays n h.onDate).imp fun y e hy _ hye => ⟨hye.1, ?_⟩
    rw [((shiftDays_eq_ok_iff h.not_isLeap).mp hy).1]
    exact h.2

end Gregorian

/-! ## Exchangeable calendars -/

namespace Simulation

variable {A : Calendar α} {B : Calendar β} {R : α → β → Prop}

/-- **Calendars in simulation cannot be told apart.**  From related moments every schedule gets
the same verdict (answer or fault, and log), and every search and every list of conditions the
same outcome, whatever the calendars do otherwise. -/
theorem indistinguishable (h : Simulation A B R) {a : α} {b : β} (hab : R a b) :
    (∀ s : Schedule, s.evaluate A a = s.evaluate B b) ∧
      (∀ f conditions, Condition.anyHolds A a f conditions = Condition.anyHolds B b f conditions) ∧
      (∀ w, A.lastWeekday a w = B.lastWeekday b w) ∧
      (∀ w nth, A.nthWeekday a w nth = B.nthWeekday b w nth) ∧
      A.lastWorkday a = B.lastWorkday b ∧
      A.nearestWorkday a = B.nearestWorkday b := by
  have hd := h.toDateSimulation
  refine ⟨?_, ?_, ?_, ?_, ?_, ?_⟩
  · intro s
    exact hd.evaluate_eq hab (h.field hab) s
  · intro f conditions
    exact hd.anyHolds_eq hab (h.field hab f) conditions
  · intro w
    exact hd.lastWeekday_eq hab w
  · intro w nth
    exact hd.nthWeekday_eq hab w nth
  · exact hd.lastWorkday_eq hab
  · exact hd.nearestWorkday_eq hab

/-- The last Saturday of a September, with and without its midnight. -/
theorem indistinguishable_at_midnight :
    ({ weekday := [.lastWeekday 6] } : Schedule).evaluate gregorian
        ⟨⟨2023, 9, 30, by decide, by decide, by decide⟩, .midnight⟩
      = ({ weekday := [.lastWeekday 6] } : Schedule).evaluate dates
        ⟨2023, 9, 30, by decide, by decide, by decide⟩ :=
  (indistinguishable Gregorian.midnight_dates ⟨rfl, rfl⟩).1 { weekday := [.lastWeekday 6] }

end Simulation

end Recurrence
