/-
# What conditions mean

The meaning of a condition on the Gregorian calendar, in whole numbers and dates and without any
search:

* `Condition.HoldsOn` : when a condition on a field holds at a moment;
* `Condition.FailsOn` : when it cannot be decided, because the search for its day leaves the years
  of the calendar.

`Condition.Accepts` is the meaning for one candidate value, and `Condition.exists_accepts_iff`
puts the candidates together.
-/
import Recurrence.Proofs.Gregorian.Searches

namespace Recurrence

/-! ## Values -/

namespace DateTime

/-- The value of a field as a whole number. -/
def value (x : DateTime) : Field → Int
  | .second => x.time.second
  | .minute => x.time.minute
  | .hour => x.time.hour
  | .day => x.date.day
  | .month => x.date.month
  | .weekday => x.date.weekday
  | .year => x.date.year

/-- The number stands for the value of a field: on a Sunday the weekday is 7 and also 0. -/
def Reads (x : DateTime) (f : Field) (v : Int) : Prop :=
  v = x.value f ∨ (f = .weekday ∧ x.date.weekday = 7 ∧ v = 0)

/-- 32 bits hold the value of every field. -/
theorem toInt_field (x : DateTime) (f : Field) : (gregorian.field x f).toInt = x.value f := by
  have hs := x.time.seconds_mem
  have hy := x.date.year_mem
  have hm := x.date.month_mem
  have hd := x.date.day_mem
  have hlen := monthLength_bounds x.date.year x.date.month
  have hw := x.date.weekday_bounds
  rw [Date.firstYear, Date.lastYear] at hy
  have hv : -2147483648 ≤ x.value f ∧ x.value f < 2147483648 := by
    cases f <;> simp only [value, TimeOfDay.second, TimeOfDay.minute, TimeOfDay.hour] <;> omega
  cases f <;> exact Int32.toInt_ofInt_of_le hv.1 hv.2

theorem weekday_eq_sunday_iff (x : DateTime) :
    gregorian.weekday x = Calendar.sunday ↔ x.date.weekday = 7 :=
  dates.weekday_eq_sunday_iff

/-- The candidate values of a field are the numbers that stand for its value. -/
theorem exists_candidate_iff (x : DateTime) (f : Field) {p : Int → Prop} :
    (∃ v ∈ gregorian.candidates x f, p v.toInt) ↔ ∃ v, x.Reads f v ∧ p v := by
  by_cases h : f = .weekday ∧ x.date.weekday = 7
  · obtain ⟨rfl, h7⟩ := h
    have hv : x.value .weekday = 7 := h7
    rw [Calendar.candidates_sunday _ (x.weekday_eq_sunday_iff.mpr h7)]
    constructor
    · rintro ⟨v, hmem, hp⟩
      rw [List.mem_cons, List.mem_singleton] at hmem
      rcases hmem with rfl | rfl
      · exact ⟨0, Or.inr ⟨rfl, h7, rfl⟩, hp⟩
      · exact ⟨7, Or.inl hv.symm, hp⟩
    · rintro ⟨v, rfl | ⟨-, -, rfl⟩, hp⟩
      · rw [hv] at hp
        exact ⟨7, by decide, hp⟩
      · exact ⟨0, by decide, hp⟩
  · -- any other value has no second number
    have hc : gregorian.candidates x f = [gregorian.field x f] :=
      if_neg fun hf => h ⟨hf.1, x.weekday_eq_sunday_iff.mp hf.2⟩
    rw [hc]
    constructor
    · rintro ⟨v, hmem, hp⟩
      rw [List.mem_singleton.mp hmem, x.toInt_field] at hp
      exact ⟨x.value f, Or.inl rfl, hp⟩
    · rintro ⟨v, rfl | ⟨hf, h7, -⟩, hp⟩
      · exact ⟨gregorian.field x f, List.mem_singleton_self _, by rwa [x.toInt_field]⟩
      · exact absurd ⟨hf, h7⟩ h

end DateTime

/-- The number lies in the circular range from `first` to `last`. -/
def InCycle (first last v : Int) : Prop :=
  (first ≤ last ∧ first ≤ v ∧ v ≤ last) ∨ (last < first ∧ (first ≤ v ∨ v ≤ last))

/-! ## The meaning of a condition -/

namespace Condition

open Date (SameMonth IsNearestWorkday)

/-- The date has a day that a condition names by its place in the month.  Days beyond the month
are anchored at its end, and days before it are counted back from its beginning. -/
def NamesDay (d : Date) (f : Field) : Condition → Prop
  | lastDay => f = .day ∧ d.day = d.lengthOfMonth
  | nearestWorkday .lastDay => f = .day ∧ d.IsLastWorkday
  | nearestWorkday (.day n) =>
    f = .day ∧ ∃ a e : Date,
      a.dayNumber = d.firstOfMonth.dayNumber + (min n.toInt d.lengthOfMonth - 1) ∧
      IsNearestWorkday a e ∧ e.day = d.day
  | lastWeekday w => f = .weekday ∧ d.IsLastOn w.toInt
  | nthWeekday w n =>
    f = .weekday ∧
      if n = 0 then ∃ e : Date, e.dayNumber = d.firstOfMonth.dayNumber - 1 ∧ e.day = d.day
      else d.IsNthOn w.toInt n.toInt
  | _ => False

/-- The condition on the field `f` holds at the moment `x`.  A step counts the value of the field
alone, also on a Sunday. -/
def HoldsOn (x : DateTime) (f : Field) : Condition → Prop
  | any => True
  | number n => x.Reads f n.toInt
  | range first last => ∃ v, x.Reads f v ∧ InCycle first.toInt last.toInt v
  | step .any k => 0 < k.toNat ∧ (k.toNat : Int) ∣ x.value f
  | step (.range first last) k =>
    0 < k.toNat ∧ InCycle first.toInt last.toInt (x.value f) ∧
      (k.toNat : Int) ∣ x.value f - first.toInt
  | c => c.NamesDay x.date f

/-- The condition on the field `f` cannot be decided for a moment on the date `d`. -/
def FailsOn (d : Date) (f : Field) : Condition → Prop
  | lastDay | nearestWorkday .lastDay => f = .day ∧ d.IsLastMonth
  | nearestWorkday (.day n) =>
    f = .day ∧ (d.IsLastMonth ∨
      (n.toInt ≤ 0 ∧ d.firstOfMonth.dayNumber + (n.toInt - 1) < Date.firstNumber))
  | lastWeekday w =>
    f = .weekday ∧ (d.IsLastMonth ∨ (d.IsFirstMonth ∧ ¬ (0 ≤ w.toInt ∧ w.toInt ≤ 7)))
  | nthWeekday w n =>
    f = .weekday ∧
      if n = 0 then d.IsFirstMonth
      else d.IsLastMonth ∧ ∀ e, SameMonth d e → ¬ e.IsNthOn w.toInt n.toInt
  | _ => False

/-! ## One candidate value -/

/-- The condition on the field `f` of a moment on the date `d` holds for the candidate value `v`. -/
def Accepts (d : Date) (f : Field) (v : Int) : Condition → Prop
  | any => True
  | number n => v = n.toInt
  | range first last => InCycle first.toInt last.toInt v
  | step .any k => ¬ (f = .weekday ∧ v = 0) ∧ 0 < k.toNat ∧ (k.toNat : Int) ∣ v
  | step (.range first last) k =>
    ¬ (f = .weekday ∧ v = 0) ∧ 0 < k.toNat ∧ InCycle first.toInt last.toInt v ∧
      (k.toNat : Int) ∣ v - first.toInt
  | lastDay => f = .day ∧ v = d.lengthOfMonth
  | c => c.NamesDay d f

/-- A number that stands for the value of a field and is not the second number of Sunday is the
value itself. -/
theorem exists_reads_ne_zero_iff (x : DateTime) (f : Field) {p : Int → Prop} :
    (∃ v, x.Reads f v ∧ ¬ (f = .weekday ∧ v = 0) ∧ p v) ↔ p (x.value f) := by
  constructor
  · rintro ⟨v, rfl | ⟨hf, -, hv⟩, hne, hp⟩
    · exact hp
    · exact absurd ⟨hf, hv⟩ hne
  · intro hp
    refine ⟨x.value f, Or.inl rfl, ?_, hp⟩
    rintro ⟨rfl, hv⟩
    have hw := x.date.weekday_bounds
    have hv' : x.date.weekday = 0 := hv
    omega

/-- A condition holds at a moment if it accepts a number that stands for the value. -/
theorem exists_accepts_iff (x : DateTime) (f : Field) (c : Condition) :
    (∃ v, x.Reads f v ∧ c.Accepts x.date f v) ↔ c.HoldsOn x f := by
  have hread : x.Reads f (x.value f) := Or.inl rfl
  have hconst : ∀ q : Prop, (∃ v, x.Reads f v ∧ q) ↔ q := fun q =>
    ⟨fun ⟨_, _, hq⟩ => hq, fun hq => ⟨x.value f, hread, hq⟩⟩
  cases c with
  | any => exact hconst True
  | number n =>
      constructor
      · rintro ⟨v, hv, rfl⟩
        exact hv
      · intro hn
        exact ⟨n.toInt, hn, rfl⟩
  | range first last => exact Iff.rfl
  | step base k =>
      cases base with
      | any => exact exists_reads_ne_zero_iff x f
      | range first last => exact exists_reads_ne_zero_iff x f
  | lastDay =>
      constructor
      · rintro ⟨v, rfl | ⟨hw, -, -⟩, rfl, hv⟩
        · exact ⟨rfl, hv⟩
        · cases hw
      · rintro ⟨rfl, hv⟩
        exact ⟨x.date.day, Or.inl rfl, rfl, hv⟩
  | nearestWorkday anchor => exact hconst _
  | lastWeekday w => exact hconst _
  | nthWeekday w n => exact hconst _

end Condition

end Recurrence
