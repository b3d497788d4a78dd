/-
# Times of day

A time of day counts whole seconds since midnight and nanoseconds within the second.  The
nanoseconds run up to two thousand million, so that a second can be followed by a leap second:
from one thousand million on they lie in it, and the clock keeps showing the second before.
-/

namespace Recurrence

/-- A time of day. -/
@[ext] structure TimeOfDay where
  /-- Whole seconds since midnight. -/
  seconds : Int
  nanosecond : Int
  seconds_mem : 0 ≤ seconds ∧ seconds < 86400
  nanosecond_mem : 0 ≤ nanosecond ∧ nanosecond < 2000000000
  deriving DecidableEq, Repr

namespace TimeOfDay

/-! ## Reading -/

/-- The hour on the clock. -/
def hour (t : TimeOfDay) : Int := t.seconds / 3600

/-- The minute on the clock. -/
def minute (t : TimeOfDay) : Int := t.seconds / 60 % 60

/-- The second on the clock. -/
def second (t : TimeOfDay) : Int := t.seconds % 60

/-- The time lies in a leap second. -/
def IsLeap (t : TimeOfDay) : Prop := 1000000000 ≤ t.nanosecond

instance (t : TimeOfDay) : Decidable t.IsLeap := inferInstanceAs (Decidable (_ ≤ _))

/-! ## Making -/

/-- The time that the clock shows, if it can show it.  A leap second follows only the last
second of a minute. -/
def ofClock? (hour minute second nanosecond : Int) : Option TimeOfDay :=
  if h : (0 ≤ hour ∧ hour < 24) ∧ (0 ≤ minute ∧ minute < 60) ∧ (0 ≤ second ∧ second < 60) ∧
      0 ≤ nanosecond ∧
      (nanosecond < 1000000000 ∨ (nanosecond < 2000000000 ∧ second = 59)) then
    some ⟨hour * 3600 + minute * 60 + second, nanosecond, by omega, by omega⟩
  else none

/-- The same time without its leap second: one thousand million nanoseconds earlier. -/
def withoutLeap (t : TimeOfDay) : TimeOfDay :=
  ⟨t.seconds, t.nanosecond % 1000000000, t.seconds_mem, by omega⟩

theorem withoutLeap_of_not_isLeap {t : TimeOfDay} (h : ¬ t.IsLeap) : t.withoutLeap = t := by
  have hn := t.nanosecond_mem
  unfold IsLeap at h
  ext
  · rfl
  · simp only [withoutLeap]
    omega

/-- The clock shows what it was set to. -/
theorem fields_of_ofClock? {hour minute second nanosecond : Int} {t : TimeOfDay}
    (h : ofClock? hour minute second nanosecond = some t) :
    t.hour = hour ∧ t.minute = minute ∧ t.second = second ∧ t.nanosecond = nanosecond := by
  unfold ofClock? at h
  split at h
  · rw [← Option.some.inj h]
    simp only [TimeOfDay.hour, TimeOfDay.minute, TimeOfDay.second]
    refine ⟨?_, ?_, ?_, trivial⟩ <;> omega
  · simp at h

end TimeOfDay

end Recurrence
