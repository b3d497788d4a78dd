/-
# Months of a calendar

The searches through a month see nothing of a calendar but its steps.  `Calendar.IsMonth` says what
makes the `n` days `p 0`, `p 1`, … a month for them: every day reads as its number, and steps within
the month lead where they should.  Where the month ends, and what lies next to it, is asked for only
by the searches that look there (`HasEnd`, `HasNext`, `HasPrevious`).

On a month the searches are settled by the places of its days, whatever day they start from:

* `IsMonth.lastWeekday_eq`, `IsMonth.lastWorkday_eq` : the last day accepted;
* `IsMonth.nthWeekday_eq_some`, `IsMonth.nthWeekday_eq_none`, `IsMonth.exists_nthWeekday` : the day
  that completes the count;
* `IsMonth.nearestWorkday_of_sunday`, `IsMonth.nearestWorkday_of_saturday` : the day next to the
  weekend, or the one on its other side where the month ends;
* `IsMonth.anchorDay_eq` : the day with a number, or the last one.

Nothing is said of weekdays up to there.  The last section adds weeks of seven days (`InWeeks`).
-/
import Recurrence.Proofs.Walk

namespace Recurrence

/-- Words in the signed 32-bit range are told apart by their values. -/
theorem int32_ofInt_eq_iff {x y : Int} (hx : -2147483648 ≤ x ∧ x < 2147483648)
    (hy : -2147483648 ≤ y ∧ y < 2147483648) : Int32.ofInt x = Int32.ofInt y ↔ x = y := by
  rw [← Int32.toInt_inj, Int32.toInt_ofInt_of_le hx.1 hx.2, Int32.toInt_ofInt_of_le hy.1 hy.2]

namespace Calendar

variable {τ : Type} {C : Calendar τ} {p : Int → τ} {n i k : Int}

/-! ## Weekday numbers -/

section Numbers

variable {number : UInt32}

/-- Weekdays are compared modulo seven; a schedule writes them as 0 to 7. -/
theorem sameWeekday_iff (h : number.toNat < 2147483648) (w : Int32) :
    SameWeekday number w ↔
      (0 ≤ w.toInt ∧ w.toInt ≤ 7) ∧ (number.toNat : Int) % 7 = w.toInt % 7 := by
  have hnumber : number.toInt32.toInt = number.toNat :=
    BitVec.toInt_eq_toNat_of_lt (show 2 * number.toNat < 4294967296 by omega)
  rw [SameWeekday, Int32.le_iff_toInt_le, Int32.le_iff_toInt_le, ← Int32.toInt_inj,
    Int32.toInt_mod, Int32.toInt_mod, hnumber, and_assoc]
  show 0 ≤ w.toInt ∧ w.toInt ≤ 7 ∧ _ ↔ _
  apply and_congr_right
  intro h₀
  apply and_congr_right
  intro _
  rw [Int.tmod_eq_emod_of_nonneg (by omega), Int.tmod_eq_emod_of_nonneg h₀]
  exact Iff.rfl

/-- Working days are those numbered below Saturday. -/
theorem isWorkday_iff : IsWorkday number ↔ number.toNat < 6 := by
  rw [IsWorkday, UInt32.lt_iff_toNat_lt]
  exact Iff.rfl

theorem eq_sunday_iff : number = sunday ↔ number.toNat = 7 := by
  rw [← UInt32.toNat_inj]
  exact Iff.rfl

theorem eq_saturday_iff : number = saturday ↔ number.toNat = 6 := by
  rw [← UInt32.toNat_inj]
  exact Iff.rfl

end Numbers

/-! ## Months -/

/-- The `n` days `p 0`, `p 1`, … make up a month. -/
structure IsMonth (C : Calendar τ) (p : Int → τ) (n : Int) : Prop where
  nonempty : 1 ≤ n
  day : ∀ i, 0 ≤ i ∧ i < n → (C.day (p i)).toInt = i + 1
  month : ∀ i, 0 ≤ i ∧ i < n → C.month (p i) = C.month (p 0)
  beginningOfMonth : ∀ i, 0 ≤ i ∧ i < n → C.beginningOfMonth (p i) = .ok (p 0)
  shiftDays : ∀ i k, 0 ≤ i ∧ i < n → 0 ≤ k ∧ k < n → C.shiftDays (p i) (k - i) = .ok (p k)

/-- The end of the month is found, and is its last day. -/
def HasEnd (C : Calendar τ) (p : Int → τ) (n : Int) : Prop :=
  ∀ i, 0 ≤ i ∧ i < n → C.endOfMonth (p i) = .ok (p (n - 1))

/-- After the last day comes a day of a month with another number. -/
def HasNext (C : Calendar τ) (p : Int → τ) (n : Int) : Prop :=
  C.shiftDays (p (n - 1)) 1 = .ok (p n) ∧ C.month (p n) ≠ C.month (p 0)

/-- Before the first day comes a day of a month with another number. -/
def HasPrevious (C : Calendar τ) (p : Int → τ) : Prop :=
  C.shiftDays (p 0) (-1) = .ok (p (-1)) ∧ C.month (p (-1)) ≠ C.month (p 0)

namespace IsMonth

/-- Days of the month are told apart by their numbers. -/
theorem day_eq_iff (h : C.IsMonth p n) (hi : 0 ≤ i ∧ i < n) (hk : 0 ≤ k ∧ k < n) :
    C.day (p i) = C.day (p k) ↔ i = k := by
  rw [← Int32.toInt_inj, h.day i hi, h.day k hk]
  omega

/-! ## Back from the end of the month -/

section Back

variable {accept : UInt32 → Bool}

/-- Steps back from the last day run through the month. -/
theorem isRun_back (h : C.IsMonth p n) {m : Nat} (hm : (m : Int) < n) :
    C.IsRun (-1) (fun i : Nat => p (n - 1 - i)) m := by
  intro i hi
  have hs := h.shiftDays (n - 1 - i) (n - 1 - (i + 1 : Nat)) (by omega) (by omega)
  rwa [show n - 1 - (i + 1 : Nat) - (n - 1 - i) = -1 by omega] at hs

/-- A walk back from the end of a month stops at the last day that it accepts. -/
theorem searchBack_eq (h : C.IsMonth p n) (hk : 0 ≤ k ∧ k < n) (hlong : n ≤ k + 31)
    (hno : ∀ i, k < i ∧ i < n → accept (C.weekday (p i)) = false)
    (hyes : accept (C.weekday (p k)) = true) :
    C.searchBack accept longestMonth (p (n - 1)) = .ok (some (C.day (p k))) := by
  obtain ⟨m, hm⟩ : ∃ m : Nat, (m : Int) = n - 1 - k := ⟨(n - 1 - k).toNat, by omega⟩
  have hend : p (n - 1 - m) = p k := by rw [hm, Int.sub_sub_self]
  rw [← hend]
  refine searchBack_of_accept (by rw [Int.natCast_zero, Int.sub_zero]) (show m < 31 by omega)
    (h.isRun_back (by omega)) (fun i hi => hno _ (by omega)) ?_
  rwa [hend]

end Back

/-- The search for the last day on a weekday stops at the last one of the month. -/
theorem lastWeekday_eq (h : C.IsMonth p n) (hend : C.HasEnd p n) (hi : 0 ≤ i ∧ i < n)
    (hk : 0 ≤ k ∧ k < n) (hlong : n ≤ k + 31) {w : Int32}
    (hno : ∀ j, k < j ∧ j < n → ¬ SameWeekday (C.weekday (p j)) w)
    (hyes : SameWeekday (C.weekday (p k)) w) :
    C.lastWeekday (p i) w = .ok (some (C.day (p k))) := by
  rw [lastWeekday, hend i hi]
  show C.searchBack (fun number => SameWeekday number w) longestMonth (p (n - 1)) = _
  exact h.searchBack_eq hk hlong (fun j hj => decide_eq_false (hno j hj)) (decide_eq_true hyes)

theorem lastWorkday_eq (h : C.IsMonth p n) (hend : C.HasEnd p n) (hi : 0 ≤ i ∧ i < n)
    (hk : 0 ≤ k ∧ k < n) (hlong : n ≤ k + 31)
    (hno : ∀ j, k < j ∧ j < n → ¬ IsWorkday (C.weekday (p j)))
    (hyes : IsWorkday (C.weekday (p k))) :
    C.lastWorkday (p i) = .ok (some (C.day (p k))) := by
  rw [lastWorkday, hend i hi]
  show C.searchBack (fun number => IsWorkday number) longestMonth (p (n - 1)) = _
  exact h.searchBack_eq hk hlong (fun j hj => decide_eq_false (hno j hj)) (decide_eq_true hyes)

/-! ## On from the beginning of the month -/

section Forward

variable {w nth : Int32} {m : Nat}

/-- Steps on from the first day run through the month. -/
theorem isRun_forward (h : C.IsMonth p n) (hm : (m : Int) < n) :
    C.IsRun 1 (fun i : Nat => p i) m := by
  intro i hi
  have hs := h.shiftDays i (i + 1 : Nat) (by omega) (by omega)
  rwa [show ((i + 1 : Nat) : Int) - i = 1 by omega] at hs

/-- With the day after it, the days of a month make a run. -/
theorem isRun_onward (h : C.IsMonth p n) (hnext : C.HasNext p n) (hm : (m : Int) = n) :
    C.IsRun 1 (fun i : Nat => p i) m := by
  intro i hi
  rcases Int.lt_or_le (i + 1 : Nat) n with hlt | hle
  · exact h.isRun_forward (m := i + 1) hlt i (by omega)
  · have hs := hnext.1
    rwa [show n - 1 = i by omega, show n = (i + 1 : Nat) by omega] at hs

/-- For every number but zero the search is a walk from the first day on. -/
theorem nthWeekday_of_ne_zero (h : C.IsMonth p n) (hi : 0 ≤ i ∧ i < n) (hnth : nth ≠ 0) :
    C.nthWeekday (p i) w nth = C.countForward (C.month (p 0)) w longestMonth nth (p 0) := by
  rw [nthWeekday, h.beginningOfMonth i hi]
  exact if_neg hnth

/-- The walk on stops at the day that completes the count. -/
theorem nthWeekday_eq_some (h : C.IsMonth p n) (hi : 0 ≤ i ∧ i < n) (hlong : n ≤ 31)
    (hm : (m : Int) < n) (hw : SameWeekday (C.weekday (p m)) w)
    (hc : nth.toInt = C.hits w (fun i : Nat => p i) m + 1) :
    C.nthWeekday (p i) w nth = .ok (some (C.day (p m))) := by
  have hnth : nth ≠ 0 := by
    intro hz
    rw [hz, Int32.toInt_zero] at hc
    omega
  rw [h.nthWeekday_of_ne_zero hi hnth]
  exact countForward_of_complete (p := fun i : Nat => p i) rfl (show m < 31 by omega)
    (by decide) (h.isRun_forward hm) (fun j hj => h.month _ (by omega)) hw hc

/-- A month in which no day completes the count is passed. -/
theorem nthWeekday_eq_none (h : C.IsMonth p n) (hnext : C.HasNext p n) (hi : 0 ≤ i ∧ i < n)
    (hlong : n ≤ 31) (hnth : nth ≠ 0)
    (hc : ∀ j : Nat, (j : Int) < n → SameWeekday (C.weekday (p j)) w →
      nth.toInt ≠ C.hits w (fun i : Nat => p i) j + 1) :
    C.nthWeekday (p i) w nth = .ok none := by
  obtain ⟨m, hm⟩ : ∃ m : Nat, (m : Int) = n := ⟨n.toNat, by omega⟩
  have hrun := h.isRun_onward hnext hm
  have hmonth : ∀ j < m, C.month (p j) = C.month (p 0) := fun j hj => h.month _ (by omega)
  have hc' := fun j (hj : j < m) => hc j (by omega)
  rw [h.nthWeekday_of_ne_zero hi hnth]
  by_cases h31 : m = 31
  · -- the month is as long as the walk
    subst h31
    exact countForward_of_exhausted (p := fun i : Nat => p i) rfl (by decide) hrun hmonth hc'
  · -- the walk sees the first day of the next month
    refine countForward_of_month_ne (p := fun i : Nat => p i) (k := m) rfl
      (show m < 31 by omega) (by decide) hrun hmonth hc' ?_
    rw [hm]
    exact hnext.2

/-- **The search by number has an outcome in every month**: the day that completes the count, if the
month has it. -/
theorem exists_nthWeekday (h : C.IsMonth p n) (hnext : C.HasNext p n) (hi : 0 ≤ i ∧ i < n)
    (hlong : n ≤ 31) (hnth : nth ≠ 0) :
    ∃ r, C.nthWeekday (p i) w nth = .ok r ∧
      ∀ d, r = some d ↔ ∃ m : Nat, (m : Int) < n ∧ SameWeekday (C.weekday (p m)) w ∧
        nth.toInt = C.hits w (fun i : Nat => p i) m + 1 ∧ C.day (p m) = d := by
  by_cases hex : ∃ m : Nat, (m : Int) < n ∧ SameWeekday (C.weekday (p m)) w ∧
      nth.toInt = C.hits w (fun i : Nat => p i) m + 1
  · obtain ⟨m, hm, hw, hc⟩ := hex
    refine ⟨_, h.nthWeekday_eq_some hi hlong hm hw hc, fun d => ?_⟩
    rw [Option.some.injEq]
    constructor
    · intro hd
      exact ⟨m, hm, hw, hc, hd⟩
    · -- the count is complete on one day only
      rintro ⟨k, -, hwk, hck, hd⟩
      rcases Nat.lt_trichotomy m k with hlt | rfl | hgt
      · have hhits := hits_lt (p := fun i : Nat => p i) hlt hw
        omega
      · exact hd
      · have hhits := hits_lt (p := fun i : Nat => p i) hgt hwk
        omega
  · refine ⟨none, ?_, fun d => iff_of_false nofun ?_⟩
    · exact h.nthWeekday_eq_none hnext hi hlong hnth fun j hj hw hc => hex ⟨j, hj, hw, hc⟩
    · rintro ⟨m, hm, hw, hc, -⟩
      exact hex ⟨m, hm, hw, hc⟩

end Forward

/-! ## Near a day -/

section Near

/-- A step that stays in the month is not turned round. -/
theorem shiftWithin_of_mem (h : C.IsMonth p n) (hi : 0 ≤ i ∧ i < n) {towards away : Int}
    (hk : 0 ≤ i + towards ∧ i + towards < n) :
    C.shiftWithin (p i) towards away = .ok (C.day (p (i + towards))) := by
  have hs := h.shiftDays i (i + towards) hi hk
  rw [show i + towards - i = towards by omega] at hs
  exact shiftWithin_of_month_eq hs ((h.month _ hk).trans (h.month i hi).symm)

/-- From a Sunday the Monday after is found, or the Friday before on the last day. -/
theorem nearestWorkday_of_sunday (h : C.IsMonth p n) (hn : 3 ≤ n) (hi : 0 ≤ i ∧ i < n)
    (hsun : C.weekday (p i) = sunday) (hnext : i = n - 1 → C.HasNext p n) :
    C.nearestWorkday (p i) = .ok (C.day (p (if i < n - 1 then i + 1 else i + -2))) := by
  rw [nearestWorkday, if_pos hsun]
  by_cases hlt : i < n - 1
  · rw [if_pos hlt]
    exact h.shiftWithin_of_mem hi (by omega)
  · obtain rfl : i = n - 1 := by omega
    obtain ⟨hs, hm⟩ := hnext rfl
    have haway := h.shiftDays (n - 1) (n - 1 + -2) hi (by omega)
    rw [show n - 1 + -2 - (n - 1) = -2 by omega] at haway
    rw [if_neg hlt]
    exact shiftWithin_of_month_ne hs (by rwa [h.month _ hi]) haway

/-- From a Saturday the Friday before is found, or the Monday after on the first day. -/
theorem nearestWorkday_of_saturday (h : C.IsMonth p n) (hn : 3 ≤ n) (hi : 0 ≤ i ∧ i < n)
    (hsat : C.weekday (p i) = saturday) (hprevious : i = 0 → C.HasPrevious p) :
    C.nearestWorkday (p i) = .ok (C.day (p (if 0 < i then i + -1 else i + 2))) := by
  rw [nearestWorkday, if_neg (by rw [hsat]; decide), if_pos hsat]
  by_cases hlt : 0 < i
  · rw [if_pos hlt]
    exact h.shiftWithin_of_mem hi (by omega)
  · obtain rfl : i = 0 := by omega
    obtain ⟨hs, hm⟩ := hprevious rfl
    have haway := h.shiftDays 0 (0 + 2) hi (by omega)
    rw [if_neg hlt]
    exact shiftWithin_of_month_ne hs hm haway

/-- The day found near a day lies in its month, whatever weekdays the month begins and ends on. -/
theorem exists_nearestWorkday (h : C.IsMonth p n) (hn : 3 ≤ n)
    (hnext : C.weekday (p (n - 1)) = sunday → C.HasNext p n)
    (hprevious : C.weekday (p 0) = saturday → C.HasPrevious p) (hi : 0 ≤ i ∧ i < n) :
    ∃ k, (0 ≤ k ∧ k < n) ∧ C.nearestWorkday (p i) = .ok (C.day (p k)) := by
  by_cases hsun : C.weekday (p i) = sunday
  · refine ⟨_, ?_, h.nearestWorkday_of_sunday hn hi hsun (fun hl => hnext (hl ▸ hsun))⟩
    split <;> omega
  · by_cases hsat : C.weekday (p i) = saturday
    · refine ⟨_, ?_, h.nearestWorkday_of_saturday hn hi hsat (fun hf => hprevious (hf ▸ hsat))⟩
      split <;> omega
    · refine ⟨i, hi, ?_⟩
      rw [nearestWorkday, if_neg hsun, if_neg hsat]

/-- The anchor is the day with its number, or the last one of a month that is too short. -/
theorem anchorDay_eq (h : C.IsMonth p n) (hend : C.HasEnd p n) (hi : 0 ≤ i ∧ i < n) {d : Int32}
    (hd : 1 ≤ d.toInt) : C.anchorDay (p i) d = .ok (p (min d.toInt n - 1)) := by
  have hlast : (C.day (p (n - 1))).toInt = n - 1 + 1 := h.day (n - 1) (by omega)
  rcases Int.lt_or_le n d.toInt with hlt | hle
  · rw [anchorDay_of_lt (hend i hi) (by omega), Int.min_eq_right (by omega)]
  · have hs := h.shiftDays 0 (d.toInt - 1) (by omega) (by omega)
    rw [anchorDay_of_le (hend i hi) (h.beginningOfMonth i hi) (by omega), Int.min_eq_left hle]
    rwa [Int.sub_zero] at hs

end Near

end IsMonth

/-! ## Weeks of seven days -/

/-- On the `n` days `p 0`, `p 1`, … the weekdays go round from Monday to Sunday; `first` is the place
in the week, counted from Monday, of the first of them. -/
def InWeeks (C : Calendar τ) (p : Int → τ) (n first : Int) : Prop :=
  ∀ i, 0 ≤ i ∧ i < n → ((C.weekday (p i)).toNat : Int) = (first + i) % 7 + 1

namespace InWeeks

variable {first : Int}

/-- The weekday of a day follows from that of the first day. -/
theorem sameWeekday_iff (h : C.InWeeks p n first) (hi : 0 ≤ i ∧ i < n) (w : Int32) :
    SameWeekday (C.weekday (p i)) w ↔
      (0 ≤ w.toInt ∧ w.toInt ≤ 7) ∧ (first + i + 1) % 7 = w.toInt % 7 := by
  have hnumber := h i hi
  rw [Calendar.sameWeekday_iff (by omega), hnumber, Int.emod_add_emod]

/-- The first five days of a week are working days. -/
theorem isWorkday_iff (h : C.InWeeks p n first) (hi : 0 ≤ i ∧ i < n) :
    IsWorkday (C.weekday (p i)) ↔ (first + i) % 7 ≤ 4 := by
  have hnumber := h i hi
  rw [Calendar.isWorkday_iff]
  omega

theorem eq_sunday_iff (h : C.InWeeks p n first) (hi : 0 ≤ i ∧ i < n) :
    C.weekday (p i) = sunday ↔ (first + i) % 7 = 6 := by
  have hnumber := h i hi
  rw [Calendar.eq_sunday_iff]
  omega

theorem eq_saturday_iff (h : C.InWeeks p n first) (hi : 0 ≤ i ∧ i < n) :
    C.weekday (p i) = saturday ↔ (first + i) % 7 = 5 := by
  have hnumber := h i hi
  rw [Calendar.eq_saturday_iff]
  omega

/-- In a month of a week or more, every weekday has its last day among the last seven. -/
theorem exists_last_sameWeekday (h : C.InWeeks p n first) (hn : 7 ≤ n) {w : Int32}
    (hw : 0 ≤ w.toInt ∧ w.toInt ≤ 7) :
    ∃ k, (0 ≤ k ∧ k < n) ∧ n ≤ k + 7 ∧ SameWeekday (C.weekday (p k)) w ∧
      ∀ j, k < j ∧ j < n → ¬ SameWeekday (C.weekday (p j)) w := by
  refine ⟨n - 1 - (first + n - w.toInt) % 7, by omega, by omega, ?_, ?_⟩
  · rw [h.sameWeekday_iff (by omega)]
    omega
  · intro j hj
    rw [h.sameWeekday_iff (by omega)]
    omega

/-- The last working day of a month of a week or more is among the last three. -/
theorem exists_last_isWorkday (h : C.InWeeks p n first) (hn : 7 ≤ n) :
    ∃ k, (0 ≤ k ∧ k < n) ∧ n ≤ k + 3 ∧ IsWorkday (C.weekday (p k)) ∧
      ∀ j, k < j ∧ j < n → ¬ IsWorkday (C.weekday (p j)) := by
  refine ⟨n - 1 - max 0 ((first + n - 1) % 7 - 4), by omega, by omega, ?_, ?_⟩
  · rw [h.isWorkday_iff (by omega)]
    omega
  · intro j hj
    rw [h.isWorkday_iff (by omega)]
    omega

end InWeeks

end Calendar

end Recurrence
