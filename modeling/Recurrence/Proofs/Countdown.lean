/-
# The countdown of the search by number

The search for the `n`th day on a weekday lowers a 32-bit count on every such day.  `countdown` is
the same walk over any kind of numbers and with a log of the values that the count takes.  Over words
it is the search itself (`countForward_eq_outcome`), and over whole numbers nothing can wrap around.

The two agree as long as the count starts at least 31 above the least word
(`Calendar.exact_countdown`), whatever the calendar does, because a walk lowers it at most 31 times;
for any smaller count some calendar tells them apart (`Calendar.forall_exact_iff`).

So the walk can be read off in whole numbers.  Where it finds a day, it has seen exactly as many days
on the weekday as were asked for, all in one month (`Calendar.exists_countsTo`).
-/
import Recurrence.Proofs.Walk

namespace Recurrence

/-! ## Countdowns -/

/-- What comes of a walk that counts down in `σ`. -/
structure Countdown (σ : Type) where
  outcome : Except Fault (Option Int32)
  /-- The values of the count after each time it was lowered. -/
  counts : List σ

namespace Countdown

variable {σ : Type}

/-- The end of a walk. -/
def ended (outcome : Except Fault (Option Int32)) : Countdown σ := ⟨outcome, []⟩

/-- A walk on which the count was lowered to `c` before. -/
def lowered (c : σ) (rest : Countdown σ) : Countdown σ := ⟨rest.outcome, c :: rest.counts⟩

/-- The words of a walk stand for the whole numbers of another, and both come to the same. -/
structure Exact (a : Countdown Int32) (b : Countdown Int) : Prop where
  outcome : a.outcome = b.outcome
  counts : a.counts.map Int32.toInt = b.counts

namespace Exact

variable {a : Countdown Int32} {b : Countdown Int}

theorem ended (outcome : Except Fault (Option Int32)) :
    Exact (Countdown.ended outcome) (Countdown.ended outcome) := ⟨rfl, rfl⟩

theorem lowered {c : Int32} {v : Int} (hc : c.toInt = v) (h : Exact a b) :
    Exact (a.lowered c) (b.lowered v) where
  outcome := h.outcome
  counts := by
    show c.toInt :: a.counts.map Int32.toInt = v :: b.counts
    rw [hc, h.counts]

/-- The whole numbers fit into 32 bits. -/
theorem fits (h : Exact a b) : ∀ v ∈ b.counts, -2147483648 ≤ v ∧ v < 2147483648 := by
  intro v hv
  rw [← h.counts] at hv
  obtain ⟨c, -, rfl⟩ := List.mem_map.mp hv
  exact ⟨Int32.le_toInt c, Int32.toInt_lt c⟩

end Exact

end Countdown

namespace Calendar

variable {σ τ : Type} {C : Calendar τ} {t : τ} {month w : Int32} {n : Nat}

section Numbers

variable [Sub σ] [OfNat σ 0] [OfNat σ 1] [DecidableEq σ]

/-- The walk goes on from the next day, if there is one. -/
def nextDay (C : Calendar τ) (t : τ) (walk : τ → Countdown σ) : Countdown σ :=
  match C.shiftDays t 1 with
  | .error e => .ended (.error e)
  | .ok u => walk u

/-- The walk of `countForward` with a count in `σ`. -/
def countdown (C : Calendar τ) (month w : Int32) : Nat → σ → τ → Countdown σ
  | 0, _, _ => .ended (.ok none)
  | n + 1, remaining, t =>
    if C.month t ≠ month then .ended (.ok none)
    else if SameWeekday (C.weekday t) w then
      .lowered (remaining - 1) <|
        if remaining - 1 = 0 then .ended (.ok (some (C.day t)))
        else C.nextDay t (C.countdown month w n (remaining - 1))
    else C.nextDay t (C.countdown month w n remaining)

/-- The search of `nthWeekday` with a count in `σ`. -/
def nthCountdown (C : Calendar τ) (t : τ) (w : Int32) (nth : σ) : Countdown σ :=
  match C.beginningOfMonth t with
  | .error e => .ended (.error e)
  | .ok start =>
    if nth = 0 then .ended (do return some (C.day (← C.shiftDays start (-1))))
    else C.countdown (C.month start) w longestMonth nth start

end Numbers

/-! ## Words -/

/-- In words the countdown is the search. -/
theorem countForward_eq_outcome (C : Calendar τ) (month w : Int32) (n : Nat) (r : Int32) (t : τ) :
    C.countForward month w n r t = (C.countdown month w n r t).outcome := by
  induction n generalizing r t with
  | zero => rfl
  | succ n ih =>
      -- a step that fails ends both walks, and any other one is followed by equal walks
      have hnext : ∀ r : Int32, (do C.countForward month w n r (← C.shiftDays t 1))
          = (C.nextDay t (C.countdown month w n r)).outcome := by
        intro r
        rw [nextDay]
        rcases C.shiftDays t 1 with e | u
        · rfl
        · exact ih r u
      rw [countForward, countdown, hnext, hnext]
      split
      · rfl
      · split
        · show _ = (if r - 1 = 0 then Countdown.ended _ else _ : Countdown Int32).outcome
          split <;> rfl
        · rfl

/-- So it is for the whole search by number. -/
theorem nthWeekday_eq_outcome (C : Calendar τ) (t : τ) (w nth : Int32) :
    C.nthWeekday t w nth = (C.nthCountdown t w nth).outcome := by
  rw [nthWeekday, nthCountdown]
  rcases C.beginningOfMonth t with e | start
  · rfl
  · show (if nth = 0 then _ else C.countForward (C.month start) w longestMonth nth start) = _
    by_cases hz : nth = 0
    · simp only [if_pos hz]
      rfl
    · simp only [if_neg hz]
      exact countForward_eq_outcome ..

/-! ## Words as whole numbers -/

/-- A count above the least word is lowered as a whole number. -/
theorem toInt_sub_one {r : Int32} (h : -2147483648 < r.toInt) : (r - 1).toInt = r.toInt - 1 := by
  have hlt := Int32.toInt_lt r
  rw [Int32.toInt_sub]
  exact Int.bmod_eq_of_le (by show _ ≤ r.toInt - 1; omega) (by show r.toInt - 1 < _; omega)

theorem exact_nextDay {walk : τ → Countdown Int32} {walk' : τ → Countdown Int}
    (h : ∀ u, (walk u).Exact (walk' u)) : (C.nextDay t walk).Exact (C.nextDay t walk') := by
  rw [nextDay, nextDay]
  rcases C.shiftDays t 1 with e | u
  · exact .ended _
  · exact h u

/-- **A walk of `n` days counts exactly** from `n` above the least word on. -/
theorem exact_countdown {r : Int32} (h : -2147483648 + n ≤ r.toInt) (t : τ) :
    (C.countdown month w n r t).Exact (C.countdown month w n r.toInt t) := by
  induction n generalizing r t with
  | zero => exact .ended _
  | succ n ih =>
      have hlower : (r - 1).toInt = r.toInt - 1 := toInt_sub_one (by omega)
      have hzero : r - 1 = 0 ↔ r.toInt - 1 = 0 := by
        rw [← hlower, ← Int32.toInt_inj, Int32.toInt_zero]
      rw [countdown, countdown]
      by_cases hm : C.month t ≠ month
      · rw [if_pos hm, if_pos hm]
        exact .ended _
      · rw [if_neg hm, if_neg hm]
        by_cases hw : SameWeekday (C.weekday t) w
        · rw [if_pos hw, if_pos hw]
          refine .lowered hlower ?_
          by_cases hz : r - 1 = 0
          · rw [if_pos hz, if_pos (hzero.mp hz)]
            exact .ended _
          · rw [if_neg hz, if_neg fun h => hz (hzero.mpr h), ← hlower]
            exact exact_nextDay fun u => ih (by omega) u
        · rw [if_neg hw, if_neg hw]
          exact exact_nextDay fun u => ih (by omega) u

/-- **A search by number counts exactly** from 31 above the least word on. -/
theorem exact_nthCountdown (C : Calendar τ) (t : τ) (w : Int32) {nth : Int32}
    (h : -2147483648 + 31 ≤ nth.toInt) :
    (C.nthCountdown t w nth).Exact (C.nthCountdown t w nth.toInt) := by
  have hzero : nth = 0 ↔ nth.toInt = 0 := by rw [← Int32.toInt_inj, Int32.toInt_zero]
  rw [nthCountdown, nthCountdown]
  rcases C.beginningOfMonth t with e | start
  · exact .ended _
  · show Countdown.Exact (if nth = 0 then _ else _) (if nth.toInt = 0 then _ else _)
    by_cases hz : nth = 0
    · rw [if_pos hz, if_pos (hzero.mp hz)]
      exact .ended _
    · rw [if_neg hz, if_neg fun h => hz (hzero.mpr h)]
      exact exact_countdown h start

/-! ## The least count -/

/-- A calendar that stands still on one Monday. -/
def standing : Calendar Unit where
  endOfMonth _ := .ok ()
  beginningOfMonth _ := .ok ()
  shiftDays _ _ := .ok ()
  weekday _ := 1
  field _ _ := 1

/-- Where every day counts, a count that is not above zero is lowered on every day of the walk. -/
theorem mem_counts_standing (n : Nat) {r : Int} (hr : r ≤ 0) :
    r - (n + 1 : Nat) ∈ (standing.countdown 1 1 (n + 1) r ()).counts := by
  have hmonth : ¬ standing.month () ≠ 1 := by decide
  have hday : SameWeekday (standing.weekday ()) 1 := by decide
  induction n generalizing r with
  | zero =>
      rw [countdown, if_neg hmonth, if_pos hday]
      exact List.mem_cons_self
  | succ n ih =>
      rw [countdown, if_neg hmonth, if_pos hday, if_neg (by omega)]
      apply List.mem_cons_of_mem
      have hmem := ih (r := r - 1) (by omega)
      rwa [show r - 1 - (n + 1 : Nat) = r - (n + 1 + 1 : Nat) by omega] at hmem

/-- A search from below zero lowers its number on all 31 days. -/
theorem mem_nthCounts_standing {nth : Int} (h : nth < 0) :
    nth - 31 ∈ (standing.nthCountdown () 1 nth).counts := by
  have hstart : standing.nthCountdown () 1 nth
      = if nth = 0 then .ended (do return some (standing.day (← standing.shiftDays () (-1))))
        else standing.countdown 1 1 longestMonth nth () := rfl
  rw [hstart, if_neg (by omega)]
  exact mem_counts_standing 30 (Int.le_of_lt h)

/-- **The bound is sharp**: searches by a number count exactly on all calendars if and only if the
number stands at least 31 above the least word. -/
theorem forall_exact_iff (nth : Int32) :
    (∀ (τ : Type) (C : Calendar τ) (t : τ) (w : Int32),
      (C.nthCountdown t w nth).Exact (C.nthCountdown t w nth.toInt)) ↔
      -2147483648 + 31 ≤ nth.toInt := by
  constructor
  · intro h
    rcases Int.lt_or_le nth.toInt (-2147483648 + 31) with hlt | hle
    · -- the calendar that stands still takes the count below the least word
      have hfits := (h Unit standing () 1).fits _ (mem_nthCounts_standing (by omega))
      omega
    · exact hle
  · intro h τ C t w
    exact exact_nthCountdown C t w h

/-! ## What the count has seen -/

/-- The days `p 0`, …, `p j` are a run through one month.  Exactly `n` of them fall on weekday `w`,
and the last one does. -/
structure CountsTo (C : Calendar τ) (month w : Int32) (p : Nat → τ) (j : Nat) (n : Int) : Prop where
  run : C.IsRun 1 p j
  month : ∀ i ≤ j, C.month (p i) = month
  weekday : SameWeekday (C.weekday (p j)) w
  hits : (C.hits w p (j + 1) : Int) = n

/-- The days of `p` after the day `t`. -/
def startingFrom (t : τ) (p : Nat → τ) : Nat → τ
  | 0 => t
  | i + 1 => p i

section Run

variable {p : Nat → τ} {j : Nat} {r : Int} {d : Int32}

/-- One day more in front is one day more to count, if it falls on the weekday. -/
theorem hits_startingFrom (C : Calendar τ) (w : Int32) (t : τ) (p : Nat → τ) (k : Nat) :
    C.hits w (startingFrom t p) (k + 1)
      = C.hits w p k + if SameWeekday (C.weekday t) w then 1 else 0 := by
  induction k with
  | zero =>
      rw [hits_succ]
      rfl
  | succ k ih =>
      rw [hits_succ, ih, hits_succ, Nat.add_right_comm]
      rfl

/-- A run through the month may begin a day earlier. -/
theorem CountsTo.startingFrom (h : C.CountsTo month w p j r) (ht : C.shiftDays t 1 = .ok (p 0))
    (hm : C.month t = month) :
    C.CountsTo month w (startingFrom t p) (j + 1)
      (r + if SameWeekday (C.weekday t) w then 1 else 0) where
  run i hi := by
    cases i with
    | zero => exact ht
    | succ i => exact h.run i (by omega)
  month i hi := by
    cases i with
    | zero => exact hm
    | succ i => exact h.month i (by omega)
  weekday := h.weekday
  hits := by
    rw [hits_startingFrom, ← h.hits]
    split <;> omega

/-- The days counted are at least one and at most all. -/
theorem CountsTo.bounds (h : C.CountsTo month w p j r) : 1 ≤ r ∧ r ≤ j + 1 := by
  have hle := C.hits_le w p (j + 1)
  have hlt := hits_lt (show j < j + 1 by omega) h.weekday
  rw [← h.hits]
  omega

/-- A day found after a step was found from where the step led. -/
theorem exists_of_nextDay {walk : τ → Countdown σ}
    (h : (C.nextDay t walk).outcome = .ok (some d)) :
    ∃ u, C.shiftDays t 1 = .ok u ∧ (walk u).outcome = .ok (some d) := by
  rw [nextDay] at h
  rcases hs : C.shiftDays t 1 with e | u
  · rw [hs] at h
    cases h
  · rw [hs] at h
    exact ⟨u, rfl, h⟩

/-- **A walk in whole numbers ends on the day that completes the count.** -/
theorem exists_countsTo (h : (C.countdown month w n r t).outcome = .ok (some d)) :
    ∃ p j, p 0 = t ∧ j < n ∧ C.CountsTo month w p j r ∧ C.day (p j) = d := by
  induction n generalizing r t with
  | zero => cases h
  | succ n ih =>
      -- what the walk sees from the next day on, and then this day before it
      have hstep : ∀ {r : Int}, C.month t = month →
          (C.nextDay t (C.countdown month w n r)).outcome = .ok (some d) →
          ∃ p j, p 0 = t ∧ j < n + 1 ∧
            C.CountsTo month w p j (r + if SameWeekday (C.weekday t) w then 1 else 0) ∧
            C.day (p j) = d := by
        intro r hm hnext
        obtain ⟨u, hu, hwalk⟩ := exists_of_nextDay hnext
        obtain ⟨p, j, rfl, hj, hcounts, hd⟩ := ih hwalk
        exact ⟨startingFrom t p, j + 1, rfl, by omega, hcounts.startingFrom hu hm, hd⟩
      rw [countdown] at h
      split at h
      · cases h
      · next hm =>
        have hm' : C.month t = month := Decidable.not_not.mp hm
        split at h
        · next hw =>
          change (if r - 1 = 0 then _ else _ : Countdown Int).outcome = _ at h
          split at h
          · next hz =>
            -- this day completes the count
            refine ⟨fun _ => t, 0, rfl, by omega, ⟨nofun, fun _ _ => hm', hw, ?_⟩,
              Option.some.inj (Except.ok.inj h)⟩
            rw [hits_succ, if_pos hw]
            show ((0 + 1 : Nat) : Int) = r
            omega
          · have hseen := hstep hm' h
            rwa [if_pos hw, Int.sub_add_cancel] at hseen
        · next hw =>
          have hseen := hstep hm' h
          rwa [if_neg hw, Int.add_zero] at hseen

/-- A search by a proper number in whole numbers ends on the day that completes the count. -/
theorem exists_countsTo_of_nthCountdown (hr : r ≠ 0)
    (h : (C.nthCountdown t w r).outcome = .ok (some d)) :
    ∃ p j, C.beginningOfMonth t = .ok (p 0) ∧ j < longestMonth ∧
      C.CountsTo (C.month (p 0)) w p j r ∧ C.day (p j) = d := by
  rw [nthCountdown] at h
  rcases hs : C.beginningOfMonth t with e | start
  · rw [hs] at h
    cases h
  · rw [hs] at h
    change (if r = 0 then _ else _ : Countdown Int).outcome = _ at h
    rw [if_neg hr] at h
    obtain ⟨p, j, rfl, hj, hcounts, hd⟩ := exists_countsTo h
    exact ⟨p, j, rfl, hj, hcounts, hd⟩

end Run

/-- **The search by number counts exactly.**  From 31 above the least word on, on every calendar,
the words that its count goes through are the whole numbers of the same walk, so no subtraction wraps
around.  A negative number, or one above 31, finds no day.  A day that a positive number finds is at
most 30 days after the first of the month, in one run through the month, and completes the count. -/
theorem nthWeekday_counts_exactly (C : Calendar τ) (t : τ) (w : Int32) {nth : Int32}
    (hn : -2147483648 + 31 ≤ nth.toInt) :
    C.nthWeekday t w nth = (C.nthCountdown t w nth).outcome ∧
    (C.nthCountdown t w nth).Exact (C.nthCountdown t w nth.toInt) ∧
    (∀ v ∈ (C.nthCountdown t w nth.toInt).counts, -2147483648 ≤ v ∧ v < 2147483648) ∧
    (nth.toInt < 0 ∨ 31 < nth.toInt → ∀ d, C.nthWeekday t w nth ≠ .ok (some d)) ∧
    (1 ≤ nth.toInt → ∀ d, C.nthWeekday t w nth = .ok (some d) →
      ∃ p j, C.beginningOfMonth t = .ok (p 0) ∧ j ≤ 30 ∧
        C.CountsTo (C.month (p 0)) w p j nth.toInt ∧ C.day (p j) = d) := by
  have hword := C.nthWeekday_eq_outcome t w nth
  have hexact := C.exact_nthCountdown t w hn
  have hseen : nth.toInt ≠ 0 → ∀ d, C.nthWeekday t w nth = .ok (some d) →
      ∃ p j, C.beginningOfMonth t = .ok (p 0) ∧ j < longestMonth ∧
        C.CountsTo (C.month (p 0)) w p j nth.toInt ∧ C.day (p j) = d := by
    intro hz d hd
    rw [hword, hexact.outcome] at hd
    exact exists_countsTo_of_nthCountdown hz hd
  refine ⟨hword, hexact, hexact.fits, ?_, ?_⟩
  · intro hfar d hd
    obtain ⟨p, j, -, hj, hcounts, -⟩ := hseen (by omega) d hd
    have hbounds := hcounts.bounds
    have hlong : longestMonth = 31 := rfl
    omega
  · intro hpos d hd
    obtain ⟨p, j, hstart, hj, hcounts, hday⟩ := hseen (by omega) d hd
    exact ⟨p, j, hstart, Nat.le_of_lt_succ hj, hcounts, hday⟩

/-- On the calendar that stands still every day is a Monday, so the walk finds a thirty-first one;
counting down from 31 above the least word it reaches that word and finds none. -/
theorem nthWeekday_counts_exactly_standing :
    standing.nthWeekday () 1 31 = .ok (some 1) ∧
      (∃ p j, j ≤ 30 ∧ standing.CountsTo 1 1 p j 31) ∧
      -2147483648 ∈ (standing.nthCountdown () 1 (-2147483617 : Int)).counts ∧
      standing.nthWeekday () 1 (-2147483617) ≠ .ok (some 1) := by
  have hfound : standing.nthWeekday () 1 31 = .ok (some 1) := rfl
  have hmost : -2147483648 + 31 ≤ (31 : Int32).toInt := by decide
  have hleast : -2147483648 + 31 ≤ (-2147483617 : Int32).toInt := by decide
  obtain ⟨-, -, -, -, hday⟩ := nthWeekday_counts_exactly standing () 1 hmost
  obtain ⟨-, -, -, hnone, -⟩ := nthWeekday_counts_exactly standing () 1 hleast
  obtain ⟨p, j, -, hj, hcounts, -⟩ := hday (by decide) 1 hfound
  have hlowest : (-2147483617 : Int) - 31 ∈ (standing.nthCountdown () 1 (-2147483617)).counts :=
    mem_nthCounts_standing (by decide)
  exact ⟨hfound, ⟨p, j, hj, hcounts⟩, hlowest, hnone (Or.inl (by decide)) 1⟩

end Calendar

end Recurrence
