/-
# Steps as arithmetic progressions

A step condition compares two words of 32 bits and divides their distance in 64 bits.  In whole
numbers it asks for a member of an arithmetic progression: upwards from the first value of a range,
both ways from it if the range goes round, and from zero without a range
(`StepBase.progresses_range_iff_of_le`, `StepBase.progresses_range_iff_of_lt`,
`StepBase.progresses_any_iff`).

`Condition.StepsProgress` gathers what follows for the condition, over all words, and
`Condition.steps_make_progressions` shows it for every candidate value but the second number of
Sunday, which a step never counts.
-/
import Mathlib.Data.Int.ModEq
import Recurrence.Calendar.Gregorian
import Recurrence.Proofs.Decision

namespace Recurrence

/-! ## Members of a progression -/

namespace StepBase

variable {base : StepBase} {a b v : Int32} {k k' : UInt32}

/-- A multiple of the divisor leads from the origin to the value. -/
theorem dvd_sub_iff :
    (k.toNat : Int) ∣ v.toInt - a.toInt ↔ ∃ j : Int, v.toInt = a.toInt + k.toNat * j :=
  Int.modEq_iff_dvd.symm.trans Int.modEq_iff_add_fac

/-- In a range that goes round, the steps lead both ways from its first value. -/
theorem progresses_range_iff_of_lt (hk : 0 < k.toNat) (hab : b.toInt < a.toInt) :
    (range a b).Progresses k v ↔
      ∃ j : Int, v.toInt = a.toInt + k.toNat * j ∧ (a.toInt ≤ v.toInt ∨ v.toInt ≤ b.toInt) := by
  have hin : (range a b).Contains v ↔ a.toInt ≤ v.toInt ∨ v.toInt ≤ b.toInt := by
    show InRange a b v ↔ _
    rw [inRange_iff]
    omega
  rw [progresses_iff, hin, exists_and_right, ← dvd_sub_iff]
  constructor
  · rintro ⟨hv, -, hdvd⟩
    exact ⟨hdvd, hv⟩
  · rintro ⟨hdvd, hv⟩
    exact ⟨hv, Nat.ne_of_gt hk, hdvd⟩

/-- In a range whose ends are in order, they lead upwards. -/
theorem progresses_range_iff_of_le (hk : 0 < k.toNat) (hab : a.toInt ≤ b.toInt) :
    (range a b).Progresses k v ↔
      ∃ j : Nat, v.toInt = a.toInt + k.toNat * j ∧ v.toInt ≤ b.toInt := by
  have hin : (range a b).Contains v ↔ a.toInt ≤ v.toInt ∧ v.toInt ≤ b.toInt := by
    show InRange a b v ↔ _
    rw [inRange_iff]
    omega
  rw [progresses_iff, hin, show (range a b).origin = a from rfl, dvd_sub_iff]
  constructor
  · rintro ⟨⟨hav, hvb⟩, -, j, hj⟩
    -- the value is not below the first one, so the multiple is not negative
    have hnonneg : 0 ≤ j := Int.nonneg_of_mul_nonneg_right (a := k.toNat) (by omega) (by omega)
    obtain ⟨m, rfl⟩ := Int.eq_ofNat_of_zero_le hnonneg
    exact ⟨m, hj, hvb⟩
  · rintro ⟨j, hj, hvb⟩
    have hnonneg : (0 : Int) ≤ k.toNat * j :=
      Int.mul_nonneg (Int.natCast_nonneg _) (Int.natCast_nonneg _)
    exact ⟨⟨by omega, hvb⟩, Nat.ne_of_gt hk, j, hj⟩

/-- Without a range the steps lead to the multiples of the divisor. -/
theorem progresses_any_iff (hk : 0 < k.toNat) :
    any.Progresses k v ↔ (k.toNat : Int) ∣ v.toInt := by
  rw [progresses_iff, show any.origin.toInt = 0 from rfl, Int.sub_zero]
  constructor
  · rintro ⟨-, -, hdvd⟩
    exact hdvd
  · intro hdvd
    exact ⟨trivial, Nat.ne_of_gt hk, hdvd⟩

theorem not_progresses_zero (base : StepBase) (v : Int32) : ¬ base.Progresses 0 v :=
  fun h => h.2.1 rfl

/-- Steps of length one lead to every value of a base. -/
theorem progresses_one_iff : base.Progresses 1 v ↔ base.Contains v := by
  rw [progresses_iff]
  constructor
  · rintro ⟨hin, -, -⟩
    exact hin
  · intro hin
    exact ⟨hin, by decide, Int.one_dvd _⟩

/-- Shorter steps that make up a longer one lead wherever it does. -/
theorem Progresses.of_dvd (h : base.Progresses k' v) (hk : k.toNat ∣ k'.toNat) :
    base.Progresses k v := by
  rw [progresses_iff] at h ⊢
  obtain ⟨hin, hk', hdvd⟩ := h
  refine ⟨hin, ?_, Int.dvd_trans (Int.natCast_dvd_natCast.mpr hk) hdvd⟩
  intro hzero
  rw [hzero] at hk
  exact hk' (Nat.eq_zero_of_zero_dvd hk)

end StepBase

/-! ## The condition -/

namespace Condition

variable {τ : Type} {C : Calendar τ} {t : τ} {f : Field} {v : Int32}

/-- Any candidate value but Sunday's second number is decided by the progression. -/
theorem decides_step (h : ¬ (f = .weekday ∧ v = 0)) (base : StepBase) (k : UInt32) :
    Decides ((step base k).holds C t f v) (base.Progresses k v) :=
  Decides.ok.congr (and_iff_right h)

/-- What step conditions on the field `f` say about the candidate value `v`, in whole numbers. -/
structure StepsProgress (C : Calendar τ) (t : τ) (f : Field) (v : Int32) : Prop where
  /-- 64 bits hold the distance from every origin. -/
  exact_distance : ∀ a, (distance a v).toInt = v.toInt - a.toInt
  zero : ∀ base, (step base 0).holds C t f v = .ok false
  upwards : ∀ (a b : Int32) (k : UInt32), 0 < k.toNat → a.toInt ≤ b.toInt →
    Decides ((step (.range a b) k).holds C t f v)
      (∃ j : Nat, v.toInt = a.toInt + k.toNat * j ∧ v.toInt ≤ b.toInt)
  around : ∀ (a b : Int32) (k : UInt32), 0 < k.toNat → b.toInt < a.toInt →
    Decides ((step (.range a b) k).holds C t f v)
      (∃ j : Int, v.toInt = a.toInt + k.toNat * j ∧ (a.toInt ≤ v.toInt ∨ v.toInt ≤ b.toInt))
  multiples : ∀ k : UInt32, 0 < k.toNat →
    Decides ((step .any k).holds C t f v) ((k.toNat : Int) ∣ v.toInt)
  one : ∀ a b, (step (.range a b) 1).holds C t f v = (range a b).holds C t f v
  of_dvd : ∀ (base : StepBase) (k k' : UInt32), k.toNat ∣ k'.toNat → 0 < k'.toNat →
    (step base k').holds C t f v = .ok true → (step base k).holds C t f v = .ok true

/-- **Steps make arithmetic progressions**, over all words and without overflow: from the first
value of a range upwards if its ends are in order and both ways if they are not, and from zero
without a range.  Steps of length zero lead nowhere, those of length one through the whole range,
and shorter ones wherever a multiple of them does. -/
theorem steps_make_progressions (C : Calendar τ) (t : τ) (h : ¬ (f = .weekday ∧ v = 0)) :
    StepsProgress C t f v := by
  constructor
  case exact_distance => exact fun a => toInt_distance a v
  case zero =>
    intro base
    exact (decides_step h base 0).unique
      ((Decides.ok (p := False)).congr (iff_of_false id (base.not_progresses_zero v)))
  case upwards =>
    intro a b k hk hab
    exact (decides_step h _ k).congr (StepBase.progresses_range_iff_of_le hk hab)
  case around =>
    intro a b k hk hab
    exact (decides_step h _ k).congr (StepBase.progresses_range_iff_of_lt hk hab)
  case multiples =>
    intro k hk
    exact (decides_step h _ k).congr (StepBase.progresses_any_iff hk)
  case one =>
    intro a b
    exact ((decides_step h _ 1).congr StepBase.progresses_one_iff).unique Decides.ok
  case of_dvd =>
    intro base k k' hk _ hyes
    rw [(decides_step h base k').eq_true_iff] at hyes
    exact (decides_step h base k).eq_true_iff.mpr (hyes.of_dvd hk)

/-- The longest step leads from the smallest year to the largest, and on the hour steps of two lead
from 22 past midnight to 0. -/
theorem steps_make_progressions_extremes :
    let x : DateTime := ⟨⟨2024, 1, 1, by decide, by decide, by decide⟩,
      ⟨0, 0, by decide, by decide⟩⟩
    (step (.range (-2147483648) 2147483647) 4294967295).holds gregorian x .year 2147483647
        = .ok true ∧
      (step (.range 22 3) 2).holds gregorian x .hour 0 = .ok true := by
  intro x
  constructor
  · have h := steps_make_progressions gregorian x (f := .year) (v := 2147483647) (by decide)
    exact (h.upwards _ _ _ (by decide) (by decide)).eq_true_iff.mpr ⟨1, by decide, by decide⟩
  · have h := steps_make_progressions gregorian x (f := .hour) (v := 0) (by decide)
    exact (h.around _ _ _ (by decide) (by decide)).eq_true_iff.mpr ⟨-11, by decide, by decide⟩

end Condition

end Recurrence
