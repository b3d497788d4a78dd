/-
# Walks along a run of days

A search through a month visits the days `p 0`, `p 1`, … of a run, one calendar step apart
(`IsRun`).  Nothing else is assumed of the calendar here.  The two `skip` lemmas remove the days
that a walk passes without stopping, so that its outcome is decided by the day where it stops:

* `searchBack_skip` : a walk back passes the days whose weekday number it does not accept;
* `countForward_skip` : a walk on passes the days of the month before the one that completes the
  count; what is left of the count is the count less the `hits` so far, in 32-bit arithmetic.
-/
import Recurrence.Calendar.Walk

namespace Recurrence

namespace Calendar

variable {τ : Type} {C : Calendar τ} {p : Nat → τ} {t : τ} {k m : Nat}

/-- The first `n` steps along `p` are calendar steps of `δ` days. -/
def IsRun (C : Calendar τ) (δ : Int) (p : Nat → τ) (n : Nat) : Prop :=
  ∀ i < n, C.shiftDays (p i) δ = .ok (p (i + 1))

theorem IsRun.mono {δ : Int} {n : Nat} (h : C.IsRun δ p n) (hk : k ≤ n) : C.IsRun δ p k :=
  fun i hi => h i (by omega)

/-! ## Walking back -/

section Back

variable {accept : UInt32 → Bool} {n : Nat}

/-- The walk passes the days that it does not accept. -/
theorem searchBack_skip (hrun : C.IsRun (-1) p k)
    (hno : ∀ i < k, accept (C.weekday (p i)) = false) :
    C.searchBack accept (m + k) (p 0) = C.searchBack accept m (p k) := by
  induction k generalizing m with
  | zero => rfl
  | succ k ih =>
      -- the walk has passed the first `k` days, and day `k` is the next one it looks at
      rw [show m + (k + 1) = m + 1 + k by omega,
        ih (hrun.mono (by omega)) (fun i hi => hno i (by omega)), searchBack,
        if_neg (by rw [hno k (by omega)]; exact Bool.false_ne_true), hrun k (by omega)]
      rfl

/-- The walk stops at the first accepted day. -/
theorem searchBack_of_accept (ht : p 0 = t) (hk : k < n) (hrun : C.IsRun (-1) p k)
    (hno : ∀ i < k, accept (C.weekday (p i)) = false) (hyes : accept (C.weekday (p k)) = true) :
    C.searchBack accept n t = .ok (some (C.day (p k))) := by
  obtain ⟨m, rfl⟩ : ∃ m, n = m + 1 + k := ⟨n - 1 - k, by omega⟩
  rw [← ht, searchBack_skip hrun hno, searchBack, if_pos hyes]

/-- Without an accepted day the walk ends after its last step. -/
theorem searchBack_of_exhausted (ht : p 0 = t) (hrun : C.IsRun (-1) p n)
    (hno : ∀ i < n, accept (C.weekday (p i)) = false) :
    C.searchBack accept n t = .ok none := by
  have hs := searchBack_skip (m := 0) hrun hno
  rwa [Nat.zero_add, ht] at hs

/-- A failing step before an accepted day ends the walk. -/
theorem searchBack_of_error {e : Fault} (ht : p 0 = t) (hk : k < n) (hrun : C.IsRun (-1) p k)
    (hno : ∀ i ≤ k, accept (C.weekday (p i)) = false)
    (he : C.shiftDays (p k) (-1) = .error e) : C.searchBack accept n t = .error e := by
  obtain ⟨m, rfl⟩ : ∃ m, n = m + 1 + k := ⟨n - 1 - k, by omega⟩
  rw [← ht, searchBack_skip hrun (fun i hi => hno i (by omega)), searchBack,
    if_neg (by rw [hno k (by omega)]; exact Bool.false_ne_true), he]
  rfl

end Back

/-! ## Counting on -/

section Forward

variable {month w : Int32} {n : Int32} {r : Nat}

/-- How many of the days `p 0`, …, `p (k - 1)` fall on weekday `w`. -/
def hits (C : Calendar τ) (w : Int32) (p : Nat → τ) (k : Nat) : Nat :=
  (List.range k).countP fun i => SameWeekday (C.weekday (p i)) w

theorem hits_succ (C : Calendar τ) (w : Int32) (p : Nat → τ) (k : Nat) :
    C.hits w p (k + 1) = C.hits w p k + if SameWeekday (C.weekday (p k)) w then 1 else 0 := by
  rw [hits, List.range_succ, List.countP_append, List.countP_singleton, ← hits]
  simp only [decide_eq_true_eq]

/-- No more days fall on a weekday than there are. -/
theorem hits_le (C : Calendar τ) (w : Int32) (p : Nat → τ) (k : Nat) : C.hits w p k ≤ k := by
  have h := List.countP_le_length (l := List.range k)
    (p := fun i => decide (SameWeekday (C.weekday (p i)) w))
  rwa [List.length_range] at h

theorem hits_mono (C : Calendar τ) (w : Int32) (p : Nat → τ) {i k : Nat} (h : i ≤ k) :
    C.hits w p i ≤ C.hits w p k := by
  induction h with
  | refl => exact Nat.le_refl _
  | step _ ih =>
      rw [hits_succ]
      omega

/-- A day on the weekday is counted from then on. -/
theorem hits_lt {i : Nat} (h : i < k) (hw : SameWeekday (C.weekday (p i)) w) :
    C.hits w p i < C.hits w p k := by
  have hs := C.hits_mono w p (i := i + 1) (k := k) h
  rw [hits_succ, if_pos hw] at hs
  omega

/-- Every count on the way was reached by a day on the weekday. -/
theorem exists_hits_eq {c : Nat} (hc : c < C.hits w p k) :
    ∃ i < k, SameWeekday (C.weekday (p i)) w ∧ C.hits w p i = c := by
  induction k with
  | zero => exact absurd hc (Nat.not_lt_zero c)
  | succ k ih =>
      rcases Nat.lt_or_ge c (C.hits w p k) with hlt | hge
      · obtain ⟨i, hi, hwi, hci⟩ := ih hlt
        exact ⟨i, by omega, hwi, hci⟩
      · -- the count rose above `c` on day `k` itself
        rw [hits_succ] at hc
        split at hc
        · next hwk => exact ⟨k, by omega, hwk, by omega⟩
        · omega

/-- Lowering a count for the last time: the days counted so far and this one make up `n`. -/
theorem sub_ofNat_sub_one_eq_zero_iff {c : Nat} (hc : c < 2147483647) :
    n - .ofNat c - 1 = 0 ↔ n.toInt = c + 1 := by
  have hone : Int32.ofNat c + 1 = Int32.ofInt (c + 1) := by
    rw [Int32.ofInt_add]
    rfl
  rw [Int32.sub_sub, hone, Int32.sub_eq_iff_eq_add, Int32.zero_add, ← Int32.toInt_inj,
    Int32.toInt_ofInt_of_le (by omega) (by omega)]

/-- The walk passes days of the month as long as the count is not complete. -/
theorem countForward_skip (hk : k < 2147483648) (hrun : C.IsRun 1 p k)
    (hm : ∀ i < k, C.month (p i) = month)
    (hn : ∀ i < k, SameWeekday (C.weekday (p i)) w → n.toInt ≠ C.hits w p i + 1) :
    C.countForward month w (r + k) n (p 0)
      = C.countForward month w r (n - .ofNat (C.hits w p k)) (p k) := by
  induction k generalizing r with
  | zero =>
      rw [show C.hits w p 0 = 0 from rfl, show Int32.ofNat 0 = 0 from rfl, Int32.sub_zero]
      rfl
  | succ k ih =>
      have hhits := C.hits_le w p k
      rw [show r + (k + 1) = r + 1 + k by omega,
        ih (by omega) (hrun.mono (by omega)) (fun i hi => hm i (by omega))
          (fun i hi => hn i (by omega)),
        countForward, if_neg (fun h => h (hm k (by omega))), hits_succ]
      by_cases hw : SameWeekday (C.weekday (p k)) w
      · -- day `k` counts, but does not complete the count
        rw [if_pos hw, if_pos hw,
          if_neg (fun h => hn k (by omega) hw ((sub_ofNat_sub_one_eq_zero_iff (by omega)).mp h)),
          hrun k (by omega), Int32.sub_sub, Int32.ofNat_add]
        rfl
      · rw [if_neg hw, if_neg hw, hrun k (by omega)]
        rfl

/-- The walk stops at the day of the month that completes the count. -/
theorem countForward_of_complete (ht : p 0 = t) (hk : k < r) (hr : r < 2147483648)
    (hrun : C.IsRun 1 p k) (hm : ∀ i ≤ k, C.month (p i) = month)
    (hw : SameWeekday (C.weekday (p k)) w)
    (hc : n.toInt = C.hits w p k + 1) :
    C.countForward month w r n t = .ok (some (C.day (p k))) := by
  have hhits := C.hits_le w p k
  have hn : ∀ i < k, SameWeekday (C.weekday (p i)) w → n.toInt ≠ C.hits w p i + 1 := by
    intro i hi hwi
    have hlt := hits_lt hi hwi
    omega
  obtain ⟨m, rfl⟩ : ∃ m, r = m + 1 + k := ⟨r - 1 - k, by omega⟩
  rw [← ht, countForward_skip (by omega) hrun (fun i hi => hm i (by omega)) hn, countForward,
    if_neg (fun h => h (hm k (by omega))), if_pos hw,
    if_pos ((sub_ofNat_sub_one_eq_zero_iff (by omega)).mpr hc)]

/-- The walk stops without a day when it leaves the month. -/
theorem countForward_of_month_ne (ht : p 0 = t) (hk : k < r) (hr : r < 2147483648)
    (hrun : C.IsRun 1 p k) (hm : ∀ i < k, C.month (p i) = month)
    (hn : ∀ i < k, SameWeekday (C.weekday (p i)) w → n.toInt ≠ C.hits w p i + 1)
    (hout : C.month (p k) ≠ month) : C.countForward month w r n t = .ok none := by
  obtain ⟨m, rfl⟩ : ∃ m, r = m + 1 + k := ⟨r - 1 - k, by omega⟩
  rw [← ht, countForward_skip (by omega) hrun hm hn, countForward, if_pos hout]

/-- Without a day that completes the count the walk ends after its last step. -/
theorem countForward_of_exhausted (ht : p 0 = t) (hr : r < 2147483648) (hrun : C.IsRun 1 p r)
    (hm : ∀ i < r, C.month (p i) = month)
    (hn : ∀ i < r, SameWeekday (C.weekday (p i)) w → n.toInt ≠ C.hits w p i + 1) :
    C.countForward month w r n t = .ok none := by
  have hs := countForward_skip (r := 0) hr hrun hm hn
  rwa [Nat.zero_add, ht] at hs

/-- A failing step before the count is complete ends the walk. -/
theorem countForward_of_error {e : Fault} (ht : p 0 = t) (hk : k < r) (hr : r < 2147483648)
    (hrun : C.IsRun 1 p k) (hm : ∀ i ≤ k, C.month (p i) = month)
    (hn : ∀ i ≤ k, SameWeekday (C.weekday (p i)) w → n.toInt ≠ C.hits w p i + 1)
    (he : C.shiftDays (p k) 1 = .error e) : C.countForward month w r n t = .error e := by
  have hhits := C.hits_le w p k
  obtain ⟨m, rfl⟩ : ∃ m, r = m + 1 + k := ⟨r - 1 - k, by omega⟩
  rw [← ht, countForward_skip (by omega) hrun (fun i hi => hm i (by omega))
      (fun i hi => hn i (by omega)),
    countForward, if_neg (fun h => h (hm k (by omega)))]
  by_cases hw : SameWeekday (C.weekday (p k)) w
  · rw [if_pos hw,
      if_neg (fun h => hn k (by omega) hw ((sub_ofNat_sub_one_eq_zero_iff (by omega)).mp h)), he]
    rfl
  · rw [if_neg hw, he]
    rfl

end Forward

/-! ## Near a day -/

section Near

variable {t s r : τ} {towards away : Int}

/-- The first attempt counts if it stays in the month. -/
theorem shiftWithin_of_month_eq (hs : C.shiftDays t towards = .ok s)
    (hm : C.month s = C.month t) : C.shiftWithin t towards away = .ok (C.day s) := by
  rw [shiftWithin, hs]
  exact if_pos hm

/-- Otherwise the second one does. -/
theorem shiftWithin_of_month_ne (hs : C.shiftDays t towards = .ok s)
    (hm : C.month s ≠ C.month t) (hr : C.shiftDays t away = .ok r) :
    C.shiftWithin t towards away = .ok (C.day r) := by
  rw [shiftWithin, hs]
  show (if C.month s = C.month t then _ else _) = _
  rw [if_neg hm, hr]
  rfl

/-- A month that is too short gives its last day as the anchor. -/
theorem anchorDay_of_lt {last : τ} {n : Int32} (hlast : C.endOfMonth t = .ok last)
    (hn : (C.day last).toInt < n.toInt) : C.anchorDay t n = .ok last := by
  rw [anchorDay, hlast]
  exact if_pos (Int32.lt_iff_toInt_lt.mpr hn)

/-- Otherwise the anchor is counted from the first of the month. -/
theorem anchorDay_of_le {last start : τ} {n : Int32} (hlast : C.endOfMonth t = .ok last)
    (hstart : C.beginningOfMonth t = .ok start) (hn : n.toInt ≤ (C.day last).toInt) :
    C.anchorDay t n = C.shiftDays start (n.toInt - 1) := by
  rw [anchorDay, hlast, hstart]
  apply if_neg
  intro h
  have hlt := Int32.lt_iff_toInt_lt.mp h
  omega

end Near

end Calendar

end Recurrence
