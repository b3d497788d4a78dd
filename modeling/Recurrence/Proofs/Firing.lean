/-
# Conditions that hold once a month

A condition on a day's place in its month is decided for every day anew: each day searches the
month for the day that the condition means and compares.  On a month (`Calendar.IsMonth`) with
weeks of seven days all these searches find one and the same day, so the condition holds on
exactly one of the days.

`Condition.firings` counts the days of a list on which a condition holds.  `FiresMonthly` says of
the days of a month what the counts are, for all conditions of this kind, and
`IsMonth.firesMonthly` shows it for every month of 7 to 31 days.
-/
import Mathlib.Data.List.Nodup
import Recurrence.Proofs.Decision
import Recurrence.Proofs.Month

namespace Recurrence

variable {τ : Type} {C : Calendar τ} {f : Field} {c : Condition}

/-! ## Counting days -/

/-- On how many of the days a condition on the field `f` holds; the first fault, if one of the
days has one. -/
def Condition.firings (C : Calendar τ) (f : Field) (c : Condition) (days : List τ) :
    Except Fault Nat := do
  return (← days.mapM fun t => anyHolds C t f [c]).count true

/-- Questions that all have an answer are answered together. -/
theorem mapM_ok {α β : Type} {ask : α → Except Fault β} {answer : α → β} {l : List α}
    (h : ∀ a ∈ l, ask a = .ok (answer a)) : l.mapM ask = .ok (l.map answer) := by
  induction l with
  | nil => rfl
  | cons a l ih =>
      obtain ⟨ha, hl⟩ := List.forall_mem_cons.mp h
      rw [List.mapM_cons, ha, ih hl]
      rfl

/-- Where every day has an answer, the firings count the days with a yes. -/
theorem Condition.firings_eq {days : List τ} {answer : τ → Bool}
    (h : ∀ t ∈ days, anyHolds C t f [c] = .ok (answer t)) :
    c.firings C f days = .ok (days.countP answer) := by
  rw [firings, mapM_ok h]
  show Except.ok ((days.map answer).count true) = _
  rw [List.count_eq_countP, List.countP_map]
  congr 2
  funext t
  exact beq_true _

namespace Calendar

/-- The moment falls on the weekday that a schedule writes as `w`: Sunday is 7 and also 0. -/
def FallsOn (C : Calendar τ) (w : Int32) (t : τ) : Prop :=
  ((C.weekday t).toNat : Int) = w.toInt ∨ (C.weekday t = sunday ∧ w = 0)

instance (C : Calendar τ) (w : Int32) (t : τ) : Decidable (C.FallsOn w t) :=
  inferInstanceAs (Decidable (_ ∨ _))

/-- Among the numbers from Monday to Sunday only those of one weekday are congruent. -/
theorem fallsOn_iff {t : τ} (h : 1 ≤ (C.weekday t).toNat ∧ (C.weekday t).toNat ≤ 7) (w : Int32) :
    C.FallsOn w t ↔ SameWeekday (C.weekday t) w := by
  rw [sameWeekday_iff (by omega), FallsOn, eq_sunday_iff, ← Int32.toInt_inj, Int32.toInt_zero]
  omega

/-- The days are different ones, and each condition on a day's place in its month holds on exactly
one of them.  The exception is the `n`th day on a weekday where the weekday has less than `n` days:
it is no day. -/
structure FiresMonthly (C : Calendar τ) (days : List τ) : Prop where
  nodup : days.Nodup
  lastDay : Condition.lastDay.firings C .day days = .ok 1
  lastWorkday : (Condition.nearestWorkday .lastDay).firings C .day days = .ok 1
  nearestWorkday : ∀ d : Int32, 1 ≤ d →
    (Condition.nearestWorkday (.day d)).firings C .day days = .ok 1
  lastWeekday : ∀ w : Int32, 0 ≤ w → w ≤ 7 →
    (Condition.lastWeekday w).firings C .weekday days = .ok 1
  nthWeekday : ∀ w n : Int32, 0 ≤ w → w ≤ 7 → 1 ≤ n →
    (Condition.nthWeekday w n).firings C .weekday days
      = .ok (if n.toInt ≤ days.countP (C.FallsOn w) then 1 else 0)

/-- The `n` days `p 0`, `p 1`, … of a month. -/
def monthDays (p : Int → τ) (n : Int) : List τ := (List.range n.toNat).map fun i : Nat => p i

variable {p : Int → τ} {n k : Int}

/-- The days of a month are those at the places from 0 to before `n`. -/
theorem mem_monthDays {t : τ} : t ∈ monthDays p n ↔ ∃ i, (0 ≤ i ∧ i < n) ∧ p i = t := by
  rw [monthDays, List.mem_map]
  constructor
  · rintro ⟨i, hi, rfl⟩
    have hlt := List.mem_range.mp hi
    exact ⟨i, by omega, rfl⟩
  · rintro ⟨i, hi, rfl⟩
    refine ⟨i.toNat, List.mem_range.mpr (by omega), ?_⟩
    rw [Int.toNat_of_nonneg hi.1]

theorem InWeeks.fallsOn_iff {first i : Int} (h : C.InWeeks p n first) (hi : 0 ≤ i ∧ i < n)
    (w : Int32) : C.FallsOn w (p i) ↔ SameWeekday (C.weekday (p i)) w := by
  have hnumber := h i hi
  exact Calendar.fallsOn_iff (by omega) w

/-- The walk on counts the days of its weekday. -/
theorem InWeeks.hits_eq_countP {first : Int} (h : C.InWeeks p n first) (w : Int32) :
    C.hits w (fun i : Nat => p i) n.toNat = (monthDays p n).countP (C.FallsOn w) := by
  rw [hits, monthDays, List.countP_map]
  apply List.countP_congr
  intro i hi
  have hlt := List.mem_range.mp hi
  show decide (SameWeekday (C.weekday (p i)) w) = true ↔ decide (C.FallsOn w (p i)) = true
  rw [decide_eq_true_eq, decide_eq_true_eq, h.fallsOn_iff (by omega)]

namespace IsMonth

/-! ## One day of a month -/

theorem nodup_monthDays (h : C.IsMonth p n) : (monthDays p n).Nodup := by
  refine List.Nodup.map_on ?_ List.nodup_range
  intro i hi j hj hij
  have hi' := List.mem_range.mp hi
  have hj' := List.mem_range.mp hj
  have hday := (h.day_eq_iff (by omega) (by omega)).mp (congrArg C.day hij)
  omega

/-- Exactly one day of a month has the number of a given one. -/
theorem countP_day_eq (h : C.IsMonth p n) (hk : 0 ≤ k ∧ k < n) :
    (monthDays p n).countP (fun t => C.day (p k) = C.day t) = 1 := by
  have hmem : k.toNat ∈ List.range n.toNat := List.mem_range.mpr (by omega)
  rw [monthDays, List.countP_map, ← List.count_eq_one_of_mem List.nodup_range hmem,
    List.count_eq_countP]
  apply List.countP_congr
  intro i hi
  have hlt := List.mem_range.mp hi
  show decide (C.day (p k) = C.day (p i)) = true ↔ (i == k.toNat) = true
  rw [decide_eq_true_eq, beq_iff_eq, h.day_eq_iff hk (by omega)]
  omega

/-- A condition that compares every day of a month with one and the same day holds once. -/
theorem firings_eq_one (h : C.IsMonth p n) (hk : 0 ≤ k ∧ k < n)
    (hask : ∀ i, 0 ≤ i ∧ i < n →
      Condition.anyHolds C (p i) f [c] = .ok (C.day (p k) = C.day (p i))) :
    c.firings C f (monthDays p n) = .ok 1 := by
  rw [← h.countP_day_eq hk]
  apply Condition.firings_eq
  intro t ht
  obtain ⟨i, hi, rfl⟩ := mem_monthDays.mp ht
  exact hask i hi

/-- So does a condition that searches, if the search finds one and the same day from every day. -/
theorem firings_eq_one_of_search (h : C.IsMonth p n) (hk : 0 ≤ k ∧ k < n) (hc : c ≠ .any)
    {search : τ → Except Fault (Option Int32)}
    (hholds : ∀ t v, c.holds C t f v = do return (← search t) = some (C.day t))
    (hfound : ∀ i, 0 ≤ i ∧ i < n → search (p i) = .ok (some (C.day (p k)))) :
    c.firings C f (monthDays p n) = .ok 1 := by
  apply h.firings_eq_one hk
  intro i hi
  rw [anyHolds_singleton hc (hholds (p i)), hfound i hi]
  show Except.ok (decide (some (C.day (p k)) = some (C.day (p i)))) = _
  simp only [Option.some.injEq]

/-- The last day compares the field itself, so here the calendar may not read the day in another
way. -/
theorem firings_lastDay (h : C.IsMonth p n) (hread : C.ReadsDay) (hend : C.HasEnd p n) :
    Condition.lastDay.firings C .day (monthDays p n) = .ok 1 := by
  have hn := h.nonempty
  apply h.firings_eq_one (k := n - 1) (by omega)
  intro i hi
  have hholds : Condition.lastDay.holds C (p i) .day (C.day (p i))
      = .ok (C.day (p i) = C.day (p (n - 1))) := by
    rw [Condition.holds, if_pos rfl, hend i hi]
    rfl
  rw [Condition.anyHolds, if_neg (by simp), C.candidates_of_ne_weekday (p i) (by decide),
    anyM_singleton, anyM_singleton, ← hread]
  exact hholds.trans (by simp only [eq_comm])

/-- All days of a month look back to one and the same last working day. -/
theorem firings_lastWorkday (h : C.IsMonth p n) (hend : C.HasEnd p n) {first : Int}
    (hweeks : C.InWeeks p n first) (hn : 7 ≤ n) :
    (Condition.nearestWorkday .lastDay).firings C .day (monthDays p n) = .ok 1 := by
  obtain ⟨k, hk, hlong, hyes, hno⟩ := hweeks.exists_last_isWorkday hn
  exact h.firings_eq_one_of_search hk nofun (fun _ _ => rfl)
    fun i hi => h.lastWorkday_eq hend hi hk (by omega) hno hyes

theorem firings_lastWeekday (h : C.IsMonth p n) (hend : C.HasEnd p n) {first : Int}
    (hweeks : C.InWeeks p n first) (hn : 7 ≤ n) {w : Int32} (hw : 0 ≤ w.toInt ∧ w.toInt ≤ 7) :
    (Condition.lastWeekday w).firings C .weekday (monthDays p n) = .ok 1 := by
  obtain ⟨k, hk, hlong, hyes, hno⟩ := hweeks.exists_last_sameWeekday hn hw
  exact h.firings_eq_one_of_search hk nofun (fun _ _ => rfl)
    fun i hi => h.lastWeekday_eq hend hi hk (by omega) hno hyes

/-- The anchor is one and the same day, and so is the working day near it. -/
theorem firings_nearestWorkday (h : C.IsMonth p n) (hend : C.HasEnd p n)
    (hnext : C.HasNext p n) (hprevious : C.weekday (p 0) = saturday → C.HasPrevious p)
    (hn : 3 ≤ n) {d : Int32} (hd : 1 ≤ d.toInt) :
    (Condition.nearestWorkday (.day d)).firings C .day (monthDays p n) = .ok 1 := by
  obtain ⟨k, hk, hnear⟩ := h.exists_nearestWorkday hn (fun _ => hnext) hprevious
    (i := min d.toInt n - 1) (by omega)
  apply h.firings_eq_one hk
  intro i hi
  have hholds : ∀ v, (Condition.nearestWorkday (.day d)).holds C (p i) .day v
      = .ok (C.day (p k) = C.day (p i)) := by
    intro v
    rw [Condition.holds, if_pos rfl, Condition.isNearestWorkday, h.anchorDay_eq hend hi hd]
    show (do return (← C.nearestWorkday (p (min d.toInt n - 1))) = C.day (p i) :
      Except Fault Bool) = _
    rw [hnear]
    rfl
  exact anyHolds_singleton nofun hholds

/-- All days count on to one and the same day, if the month has as many on the weekday. -/
theorem firings_nthWeekday (h : C.IsMonth p n) (hnext : C.HasNext p n) {first : Int}
    (hweeks : C.InWeeks p n first) (hlong : n ≤ 31) (w : Int32) {nth : Int32}
    (hnth : 1 ≤ nth.toInt) :
    (Condition.nthWeekday w nth).firings C .weekday (monthDays p n)
      = .ok (if nth.toInt ≤ (monthDays p n).countP (C.FallsOn w) then 1 else 0) := by
  rw [← hweeks.hits_eq_countP]
  by_cases hle : nth.toInt ≤ C.hits w (fun i : Nat => p i) n.toNat
  · -- some day completes the count
    rw [if_pos hle]
    obtain ⟨m, hm, hyes, hc⟩ := exists_hits_eq (c := (nth.toInt - 1).toNat)
      (show _ < C.hits w (fun i : Nat => p i) n.toNat by omega)
    exact h.firings_eq_one_of_search (k := m) (by omega) nofun (fun _ _ => rfl)
      fun i hi => h.nthWeekday_eq_some hi hlong (by omega) hyes (by omega)
  · -- the month ends before the count is complete
    rw [if_neg hle]
    have hc : ∀ j : Nat, (j : Int) < n → SameWeekday (C.weekday (p j)) w →
        nth.toInt ≠ C.hits w (fun i : Nat => p i) j + 1 := by
      intro j hj hwj
      have hlt := hits_lt (p := fun i : Nat => p i) (show j < n.toNat by omega) hwj
      omega
    have hzero : nth ≠ 0 := by
      rintro rfl
      exact absurd hnth (by decide)
    have hnone : (monthDays p n).countP (fun _ => false) = 0 :=
      List.countP_eq_zero.mpr fun _ _ => Bool.false_ne_true
    rw [← hnone]
    apply Condition.firings_eq
    intro t ht
    obtain ⟨i, hi, rfl⟩ := mem_monthDays.mp ht
    refine anyHolds_singleton nofun fun v => ?_
    rw [Condition.holds, if_pos rfl, h.nthWeekday_eq_none hnext hi hlong hzero hc]
    rfl

/-- **Conditions on the place of a day in its month hold once a month**, on every calendar that
reads the day off its field and whose month has 7 to 31 days, weeks of seven days and a month with
another number on either side.  The month before is looked for only from a first day that is a
Saturday. -/
theorem firesMonthly (h : C.IsMonth p n) (hread : C.ReadsDay) (hend : C.HasEnd p n)
    (hnext : C.HasNext p n) (hprevious : C.weekday (p 0) = saturday → C.HasPrevious p) {first : Int}
    (hweeks : C.InWeeks p n first) (hn : 7 ≤ n ∧ n ≤ 31) : C.FiresMonthly (monthDays p n) where
  nodup := h.nodup_monthDays
  lastDay := h.firings_lastDay hread hend
  lastWorkday := h.firings_lastWorkday hend hweeks hn.1
  nearestWorkday d hd :=
    h.firings_nearestWorkday hend hnext hprevious (by omega) (Int32.le_iff_toInt_le.mp hd)
  lastWeekday w h₀ h₇ := h.firings_lastWeekday hend hweeks hn.1
    ⟨Int32.le_iff_toInt_le.mp h₀, Int32.le_iff_toInt_le.mp h₇⟩
  nthWeekday w nth _ _ hnth :=
    h.firings_nthWeekday hnext hweeks hn.2 w (Int32.le_iff_toInt_le.mp hnth)

end IsMonth

end Calendar

end Recurrence
