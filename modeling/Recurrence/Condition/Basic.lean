/-
# Conditions on a field

A condition restricts the value of one field.  Four kinds read the value alone (any value, one
number, a circular range, a stepped progression); the other four speak about a day's place in
its month and need a calendar to be decided (`Recurrence.Condition.Evaluation`).

The operands are 32-bit words.  `InRange` and `StepsCover` are the two arithmetic tests, and
`inRange_iff` and `stepsCover_iff` state them over the integers.
-/

namespace Recurrence

/-! ## The conditions -/

/-- The values among which a step counts. -/
inductive StepBase where
  /-- Every value, counted from zero. -/
  | any
  /-- The circular range from `first` to `last`, counted from `first`. -/
  | range (first last : Int32)
  deriving DecidableEq, Repr

/-- The day of the month near which a working day is sought. -/
inductive DayAnchor where
  | day (number : Int32)
  | lastDay
  deriving DecidableEq, Repr

/-- A condition on the value of a field. -/
inductive Condition where
  /-- Every value. -/
  | any
  /-- One value. -/
  | number (n : Int32)
  /-- A circular range, both ends included. -/
  | range (first last : Int32)
  /-- Every `divisor`-th value of a base. -/
  | step (base : StepBase) (divisor : UInt32)
  /-- The last day of the month. -/
  | lastDay
  /-- The working day nearest to an anchor in the same month. -/
  | nearestWorkday (anchor : DayAnchor)
  /-- The last day of the month that falls on a weekday; Sunday is 0 or 7. -/
  | lastWeekday (weekday : Int32)
  /-- The `nth` day of the month that falls on a weekday; Sunday is 0 or 7. -/
  | nthWeekday (weekday nth : Int32)
  deriving DecidableEq, Repr

/-! ## Circular ranges -/

/-- `v` lies in the circular range from `first` to `last`: a range whose ends are out of order
runs through the end of the number line and goes on from its beginning. -/
def InRange (first last v : Int32) : Prop :=
  if first ≤ last then first ≤ v ∧ v ≤ last else first ≤ v ∨ v ≤ last

instance (first last v : Int32) : Decidable (InRange first last v) :=
  inferInstanceAs (Decidable (if first ≤ last then _ else _))

/-- The circular range in whole numbers, by the order of its ends. -/
theorem inRange_iff (first last v : Int32) :
    InRange first last v ↔
      (first.toInt ≤ last.toInt ∧ first.toInt ≤ v.toInt ∧ v.toInt ≤ last.toInt) ∨
      (last.toInt < first.toInt ∧ (first.toInt ≤ v.toInt ∨ v.toInt ≤ last.toInt)) := by
  unfold InRange
  simp only [Int32.le_iff_toInt_le]
  split <;> omega

/-! ## Stepped progressions -/

/-- The distance from `origin` to `v`, in 64 bits. -/
def distance (origin v : Int32) : Int64 := v.toInt64 - origin.toInt64

/-- 64 bits hold every distance of two 32-bit words. -/
theorem toInt_distance (origin v : Int32) : (distance origin v).toInt = v.toInt - origin.toInt := by
  have h₁ := Int32.le_toInt v
  have h₂ := Int32.toInt_lt v
  have h₃ := Int32.le_toInt origin
  have h₄ := Int32.toInt_lt origin
  rw [distance, Int64.toInt_sub, Int32.toInt_toInt64, Int32.toInt_toInt64]
  exact Int.bmod_eq_of_le (by omega) (by omega)

/-- Steps of length `divisor` cover a distance exactly; no distance is covered by steps of
length zero. -/
def StepsCover (divisor : UInt32) (d : Int64) : Prop :=
  divisor ≠ 0 ∧ d.toInt % divisor.toNat = 0

instance (divisor : UInt32) (d : Int64) : Decidable (StepsCover divisor d) :=
  inferInstanceAs (Decidable (_ ∧ _))

/-- Covering a distance by steps is divisibility, except by zero. -/
theorem stepsCover_iff (divisor : UInt32) (d : Int64) :
    StepsCover divisor d ↔ divisor.toNat ≠ 0 ∧ (divisor.toNat : Int) ∣ d.toInt := by
  rw [StepsCover, Int.dvd_iff_emod_eq_zero, ne_eq, ← UInt32.toNat_inj, UInt32.toNat_zero]

namespace StepBase

/-- `v` belongs to the base. -/
def Contains : StepBase → Int32 → Prop
  | any, _ => True
  | range first last, v => InRange first last v

instance (base : StepBase) (v : Int32) : Decidable (base.Contains v) :=
  match base with
  | any => inferInstanceAs (Decidable True)
  | range first last => inferInstanceAs (Decidable (InRange first last v))

/-- The value from which the steps are counted. -/
def origin : StepBase → Int32
  | any => 0
  | range first _ => first

/-- `v` belongs to the base and steps of length `divisor` lead to it from the origin. -/
def Progresses (base : StepBase) (divisor : UInt32) (v : Int32) : Prop :=
  base.Contains v ∧ StepsCover divisor (distance base.origin v)

instance (base : StepBase) (divisor : UInt32) (v : Int32) :
    Decidable (base.Progresses divisor v) :=
  inferInstanceAs (Decidable (_ ∧ _))

/-- The progression in whole numbers: no distance is too long for the words. -/
theorem progresses_iff (base : StepBase) (divisor : UInt32) (v : Int32) :
    base.Progresses divisor v ↔
      base.Contains v ∧ divisor.toNat ≠ 0 ∧
        (divisor.toNat : Int) ∣ v.toInt - base.origin.toInt := by
  rw [Progresses, stepsCover_iff, toInt_distance]

end StepBase

end Recurrence
