/-
# The line of days under the Gregorian calendar

A date has a year, a month and a day; behind it stands a single number, the day's place on a line
of days without months.  This module describes the calendar from the line: a shift adds to the
number, and the two ends of a month are found from the days on which months begin
(`DayLine.Moves`).

* `Date.isDayAfter_iff` : the number grows by one from each date to the date after it, as the
  lengths of the months have it;
* `Gregorian.step_eq_ok_iff`, `Gregorian.step_eq_error_iff` : away from leap seconds a step is a
  move on the line, and a step without a move fails;
* `Gregorian.travels_iff` : so a whole journey is a run of moves, with nothing happening where a
  step fails, and `Gregorian.journey_eq_ok_iff` reads its outcomes off that run;
* `journey_counts_days` : the reader's view of it, from every moment that a journey reaches.
-/
import Recurrence.Calendar.Journey
import Recurrence.Proofs.Gregorian.Searches

namespace Recurrence

/-! ## Reading a moment back -/

/-- A time away from leap seconds is what its clock shows. -/
theorem TimeOfDay.ofClock?_of_not_isLeap {t : TimeOfDay} (h : ¬ t.IsLeap) :
    ofClock? t.hour t.minute t.second t.nanosecond = some t := by
  have hs := t.seconds_mem
  have hn := t.nanosecond_mem
  have hlt : t.nanosecond < 1000000000 := by
    unfold IsLeap at h
    omega
  unfold ofClock?
  rw [dif_pos (by unfold hour minute second; omega)]
  congr 1
  ext
  · show t.hour * 3600 + t.minute * 60 + t.second = t.seconds
    unfold hour minute second
    omega
  · rfl

/-- A moment away from leap seconds is what its calendar and its clock show. -/
theorem DateTime.ofFields?_of_not_isLeap {x : DateTime} (h : ¬ x.time.IsLeap) :
    ofFields? x.date.year x.date.month x.date.day
      x.time.hour x.time.minute x.time.second x.time.nanosecond = some x := by
  have hdate : Date.ofCivil? x.date.year x.date.month x.date.day = some x.date :=
    Date.ofCivil?_eq_some_iff.mpr ⟨rfl, rfl, rfl⟩
  simp only [ofFields?, hdate, TimeOfDay.ofClock?_of_not_isLeap h, Option.bind_eq_bind,
    Option.bind_some, Option.pure_def]

/-! ## From one date to the next -/

namespace Date

variable {d e : Date}

/-- The date `e` is the day after `d`: the next day of the month, or the first of the next month
after the last day of one. -/
def IsDayAfter (d e : Date) : Prop :=
  (d.day < d.lengthOfMonth ∧ SameMonth d e ∧ e.day = d.day + 1) ∨
    (d.day = d.lengthOfMonth ∧ d.firstOfNextMonth? = some e)

/-- **Day numbers count the dates one by one.** -/
theorem isDayAfter_iff : IsDayAfter d e ↔ e.dayNumber = d.dayNumber + 1 := by
  have hlast := d.dayNumber_lastOfMonth
  constructor
  · rintro (⟨-, hm, hday⟩ | ⟨hend, hnext⟩)
    · rw [hm.dayNumber_eq]
      omega
    · rw [dayNumber_of_firstOfNextMonth? hnext]
      omega
  · intro he
    have hd := d.day_mem.2
    by_cases hend : d.day = d.lengthOfMonth
    · refine Or.inr ⟨hend, ?_⟩
      rcases hn : d.firstOfNextMonth? with _ | next
      · -- after the last day of the last month there is no date
        have hnum := lastNumber_of_isLastMonth (d.firstOfNextMonth?_eq_none_iff.mp hn)
        have hb := e.dayNumber_bounds
        omega
      · have hnum := dayNumber_of_firstOfNextMonth? hn
        rw [dayNumber_injective (show next.dayNumber = e.dayNumber by omega)]
    · have hlt : d.day < d.lengthOfMonth := by
        unfold lengthOfMonth at hend ⊢
        omega
      have hs := sameMonth_of_dayNumber he (by have := d.day_mem.1; omega)
      exact Or.inl ⟨hlt, ⟨hs.1, hs.2.1⟩, hs.2.2⟩

theorem firstOfMonth_le (d : Date) : d.firstOfMonth.dayNumber ≤ d.dayNumber := by
  have hday := d.day_mem
  rw [dayNumber_firstOfMonth]
  omega

theorem le_lastOfMonth (d : Date) : d.dayNumber ≤ d.lastOfMonth.dayNumber := by
  have hday : d.day ≤ d.lengthOfMonth := d.day_mem.2
  rw [dayNumber_lastOfMonth]
  omega

theorem day_of_firstOfNextMonth? (h : d.firstOfNextMonth? = some e) : e.day = 1 := by
  unfold firstOfNextMonth? at h
  split at h
  · exact (ofCivil?_eq_some_iff.mp h).2.2
  · exact (ofCivil?_eq_some_iff.mp h).2.2

end Date

/-! ## Moves on the line -/

namespace DayLine

/-- The number belongs to a date. -/
def HasDate (n : Int) : Prop := ∃ d : Date, d.dayNumber = n

/-- The number belongs to the first day of a month. -/
def BeginsMonth (n : Int) : Prop := ∃ d : Date, d.dayNumber = n ∧ d.day = 1

/-- The move that a step makes on the line of days.  The beginning of a month is the last day up
to `n` on which a month begins; its end is followed by the first such day after `n`. -/
inductive Moves : Int → Step → Int → Prop
  | shiftDays {n k : Int} (hdate : HasDate (n + k)) : Moves n (.shiftDays k) (n + k)
  | beginningOfMonth {n m : Int} (hle : m ≤ n) (hm : BeginsMonth m)
      (hgap : ∀ i, m < i → i ≤ n → ¬ BeginsMonth i) : Moves n .beginningOfMonth m
  | endOfMonth {n m : Int} (hle : n ≤ m) (hm : BeginsMonth (m + 1))
      (hgap : ∀ i, n < i → i ≤ m → ¬ BeginsMonth i) : Moves n .endOfMonth m

/-- A run on the line: each step moves on from where the last one ended, and a step without a
move is passed over. -/
inductive Travels : Int → List Step → Int → Prop
  | nil (n : Int) : Travels n [] n
  | moved {n m k : Int} {a : Step} {rest : List Step} (h : Moves n a m) (hrest : Travels m rest k) :
      Travels n (a :: rest) k
  | stayed {n k : Int} {a : Step} {rest : List Step} (h : ¬ ∃ m, Moves n a m)
      (hrest : Travels n rest k) : Travels n (a :: rest) k

variable {d : Date} {m : Int} {a : Step}

/-- Inside a month no other month begins. -/
theorem not_beginsMonth {i : Int} (h : d.firstOfMonth.dayNumber < i ∧ i ≤ d.lastOfMonth.dayNumber) :
    ¬ BeginsMonth i := by
  rintro ⟨e, rfl, hday⟩
  have hfirst := d.dayNumber_firstOfMonth
  have hlast := d.dayNumber_lastOfMonth
  have hs := Date.sameMonth_of_dayNumber (d := d) (e := e) (k := e.dayNumber - d.dayNumber)
    (by omega) (by omega)
  omega

theorem beginsMonth_firstOfMonth (d : Date) : BeginsMonth d.firstOfMonth.dayNumber :=
  ⟨d.firstOfMonth, rfl, rfl⟩

/-- After every month but the very last another one begins. -/
theorem beginsMonth_of_lastOfMonth (hl : ¬ d.IsLastMonth) :
    BeginsMonth (d.lastOfMonth.dayNumber + 1) := by
  rcases hn : d.firstOfNextMonth? with _ | next
  · exact absurd (d.firstOfNextMonth?_eq_none_iff.mp hn) hl
  · exact ⟨next, Date.dayNumber_of_firstOfNextMonth? hn, Date.day_of_firstOfNextMonth? hn⟩

/-- A shift moves by its length, if there is a date. -/
theorem moves_shiftDays_iff {n k : Int} :
    Moves n (.shiftDays k) m ↔ HasDate m ∧ m = n + k := by
  constructor
  · rintro ⟨hdate⟩
    exact ⟨hdate, rfl⟩
  · rintro ⟨hdate, rfl⟩
    exact .shiftDays hdate

/-- The last beginning of a month up to a date is that of the date's own month. -/
theorem moves_beginningOfMonth_iff :
    Moves d.dayNumber .beginningOfMonth m ↔ m = d.firstOfMonth.dayNumber := by
  have hfirst := Date.firstOfMonth_le d
  have hlast := Date.le_lastOfMonth d
  constructor
  · intro h
    cases h with
    | beginningOfMonth hle hm hgap =>
        rcases Int.lt_trichotomy m d.firstOfMonth.dayNumber with hlt | heq | hgt
        · exact absurd (beginsMonth_firstOfMonth d) (hgap _ hlt hfirst)
        · exact heq
        · exact absurd hm (not_beginsMonth ⟨hgt, by omega⟩)
  · rintro rfl
    refine .beginningOfMonth hfirst (beginsMonth_firstOfMonth d) ?_
    intro i hi hid
    exact not_beginsMonth ⟨hi, by omega⟩

/-- The next beginning of a month follows the last day of the date's own month, unless that month
is the last of all. -/
theorem moves_endOfMonth_iff :
    Moves d.dayNumber .endOfMonth m ↔ ¬ d.IsLastMonth ∧ m = d.lastOfMonth.dayNumber := by
  have hfirst := Date.firstOfMonth_le d
  have hlast := Date.le_lastOfMonth d
  constructor
  · intro h
    cases h with
    | endOfMonth hle hm hgap =>
        have hge : d.lastOfMonth.dayNumber ≤ m := by
          rcases Int.lt_or_le m d.lastOfMonth.dayNumber with hlt | hge
          · exact absurd hm (not_beginsMonth (d := d) ⟨by omega, by omega⟩)
          · exact hge
        have hl : ¬ d.IsLastMonth := by
          intro hl
          have hnum := Date.lastNumber_of_isLastMonth hl
          obtain ⟨e, he, -⟩ := hm
          have hb := e.dayNumber_bounds
          omega
        refine ⟨hl, ?_⟩
        rcases Int.lt_or_le d.lastOfMonth.dayNumber m with hlt | hle'
        · -- the next month would begin in the gap
          exact absurd (beginsMonth_of_lastOfMonth hl) (hgap _ (by omega) (by omega))
        · omega
  · rintro ⟨hl, rfl⟩
    refine .endOfMonth hlast (beginsMonth_of_lastOfMonth hl) ?_
    intro i hi hil
    exact not_beginsMonth (d := d) ⟨by omega, hil⟩

/-- Every move ends on a date. -/
theorem Moves.hasDate (h : Moves d.dayNumber a m) : HasDate m := by
  cases a with
  | endOfMonth => exact ⟨d.lastOfMonth, (moves_endOfMonth_iff.mp h).2.symm⟩
  | beginningOfMonth => exact ⟨d.firstOfMonth, (moves_beginningOfMonth_iff.mp h).symm⟩
  | shiftDays k => exact (moves_shiftDays_iff.mp h).1

/-- No step has two moves. -/
theorem Moves.unique {m' : Int} (h : Moves d.dayNumber a m) (h' : Moves d.dayNumber a m') :
    m = m' := by
  cases a with
  | endOfMonth => rw [(moves_endOfMonth_iff.mp h).2, (moves_endOfMonth_iff.mp h').2]
  | beginningOfMonth =>
      rw [moves_beginningOfMonth_iff.mp h, moves_beginningOfMonth_iff.mp h']
  | shiftDays k => rw [(moves_shiftDays_iff.mp h).2, (moves_shiftDays_iff.mp h').2]

end DayLine

/-! ## Steps as moves -/

namespace Gregorian

open DayLine (Moves Travels)

variable {x y : DateTime} {a : Step}

/-- The Gregorian calendar knows one fault. -/
theorem fault_eq_of_step {e : Fault} (h : gregorian.step x a = .error e) : e = .invalidDate := by
  have harrive : ∀ r : Option DateTime, arrive r = .error e → e = .invalidDate := by
    intro r hr
    rcases r with _ | z
    · exact (Except.error.inj hr).symm
    · cases hr
  cases a with
  | endOfMonth => exact harrive _ h
  | beginningOfMonth => cases h
  | shiftDays n => exact harrive _ h

/-- **A step is a move on the line of days** that keeps the time of day. -/
theorem step_eq_ok_iff (hx : ¬ x.time.IsLeap) :
    gregorian.step x a = .ok y ↔
      y.time = x.time ∧ Moves x.date.dayNumber a y.date.dayNumber := by
  cases a with
  | endOfMonth =>
      show arrive (endOfMonth? x) = .ok y ↔ _
      rw [arrive_eq_ok_iff, endOfMonth?_eq_some_iff hx, DayLine.moves_endOfMonth_iff]
      constructor
      · rintro ⟨hl, rfl⟩
        exact ⟨rfl, hl, rfl⟩
      · rintro ⟨ht, hl, hd⟩
        exact ⟨hl, DateTime.ext (Date.dayNumber_injective hd) ht⟩
  | beginningOfMonth =>
      show Except.ok (beginningOfMonth x) = .ok y ↔ _
      rw [Except.ok.injEq, DayLine.moves_beginningOfMonth_iff]
      constructor
      · rintro rfl
        exact ⟨rfl, rfl⟩
      · rintro ⟨ht, hd⟩
        have hy : y = ⟨x.date.firstOfMonth, x.time⟩ :=
          DateTime.ext (Date.dayNumber_injective hd) ht
        exact hy.symm
  | shiftDays n =>
      show gregorian.shiftDays x n = .ok y ↔ _
      rw [shiftDays_eq_ok_iff hx, DayLine.moves_shiftDays_iff]
      exact and_congr_right fun _ => (and_iff_right ⟨y.date, rfl⟩).symm

/-- A step fails exactly where the line has no move, and always with the same fault. -/
theorem step_eq_error_iff (hx : ¬ x.time.IsLeap) {e : Fault} :
    gregorian.step x a = .error e ↔
      e = .invalidDate ∧ ¬ ∃ m, Moves x.date.dayNumber a m := by
  constructor
  · intro h
    refine ⟨fault_eq_of_step h, ?_⟩
    rintro ⟨m, hm⟩
    obtain ⟨d, rfl⟩ := hm.hasDate
    have hok := (step_eq_ok_iff (y := ⟨d, x.time⟩) hx).mpr ⟨rfl, hm⟩
    rw [h] at hok
    cases hok
  · rintro ⟨rfl, hno⟩
    rcases hs : gregorian.step x a with e | y
    · rw [fault_eq_of_step hs]
    · exact absurd ⟨_, ((step_eq_ok_iff hx).mp hs).2⟩ hno

/-- Steps with the same moves have the same outcome. -/
theorem step_congr {x' : DateTime} {b : Step} (hx : ¬ x.time.IsLeap) (ht : x.time = x'.time)
    (h : ∀ m, Moves x.date.dayNumber a m ↔ Moves x'.date.dayNumber b m) :
    gregorian.step x a = gregorian.step x' b := by
  have hx' : ¬ x'.time.IsLeap := by rwa [← ht]
  rcases hs : gregorian.step x' b with e | y
  · obtain ⟨he, hno⟩ := (step_eq_error_iff hx').mp hs
    exact (step_eq_error_iff hx).mpr ⟨he, by simpa only [h] using hno⟩
  · obtain ⟨hy, hm⟩ := (step_eq_ok_iff hx').mp hs
    exact (step_eq_ok_iff hx).mpr ⟨hy.trans ht.symm, (h _).mpr hm⟩

/-! ## Journeys as runs -/

/-- **A journey is a run on the line of days**, wherever its steps fail. -/
theorem travels_iff {steps : List Step} (hx : ¬ x.time.IsLeap) {n : Int} :
    Travels x.date.dayNumber steps n ↔ (gregorian.destination x steps).date.dayNumber = n := by
  induction steps generalizing x with
  | nil =>
      constructor
      · rintro ⟨⟩
        rfl
      · rintro rfl
        exact .nil _
  | cons a rest ih =>
      rw [Calendar.destination_cons]
      rcases hs : gregorian.step x a with e | y
      · have hno := ((step_eq_error_iff hx).mp hs).2
        rw [Calendar.advance_of_error hs, ← ih hx]
        constructor
        · intro h
          cases h with
          | moved hm _ => exact absurd ⟨_, hm⟩ hno
          | stayed _ hrest => exact hrest
        · exact .stayed hno
      · obtain ⟨ht, hm⟩ := (step_eq_ok_iff hx).mp hs
        rw [Calendar.advance_of_ok hs, ← ih (by rwa [ht])]
        constructor
        · intro h
          cases h with
          | moved hm' hrest => rwa [← hm'.unique hm]
          | stayed hno _ => exact absurd ⟨_, hm⟩ hno
        · exact .moved hm

/-- No step of a journey changes the time of day. -/
theorem time_destination (hx : ¬ x.time.IsLeap) (steps : List Step) :
    (gregorian.destination x steps).time = x.time := by
  induction steps generalizing x with
  | nil => rfl
  | cons a rest ih =>
      have ht : (gregorian.advance x a).time = x.time := by
        rcases gregorian.advance_eq_or x a with hs | hs
        · exact ((step_eq_ok_iff hx).mp hs).1
        · rw [hs]
      rw [Calendar.destination_cons, ih (by rwa [ht]), ht]

/-- **A step of a journey succeeds by a move** from where the steps before it have led. -/
theorem journey_eq_ok_iff (hx : ¬ x.time.IsLeap) {before after : List Step} :
    (gregorian.journey x (before ++ a :: after))[before.length]? = some (.ok y) ↔
      y.time = x.time ∧ ∃ n, Travels x.date.dayNumber before n ∧ Moves n a y.date.dayNumber := by
  have ht := time_destination hx before
  rw [Calendar.getElem?_journey, Option.some.injEq, step_eq_ok_iff (by rwa [ht]), ht]
  simp only [travels_iff hx, exists_eq_left']

/-- It fails for want of a move. -/
theorem journey_eq_error_iff (hx : ¬ x.time.IsLeap) {before after : List Step} {e : Fault} :
    (gregorian.journey x (before ++ a :: after))[before.length]? = some (.error e) ↔
      e = .invalidDate ∧ ∃ n, Travels x.date.dayNumber before n ∧ ¬ ∃ m, Moves n a m := by
  have ht := time_destination hx before
  rw [Calendar.getElem?_journey, Option.some.injEq, step_eq_error_iff (by rwa [ht])]
  simp only [travels_iff hx, exists_eq_left']

/-! ## The calendar counted in days -/

/-- What the steps from a moment do, told by counting days. -/
structure CountsDays (x : DateTime) : Prop where
  /-- A shift succeeds exactly if the number to which it leads is that of a date. -/
  shiftDays_isOk_iff : ∀ n, (∃ y, gregorian.shiftDays x n = .ok y) ↔
    ∃ d : Date, d.dayNumber = x.date.dayNumber + n
  /-- A shift adds to the day number and goes round the week. -/
  shiftDays_ok : ∀ n y, gregorian.shiftDays x n = .ok y →
    y.date.dayNumber = x.date.dayNumber + n ∧
      ((gregorian.weekday y).toNat : Int) = ((gregorian.weekday x).toNat - 1 + n) % 7 + 1
  /-- A shift by one leads to the next date. -/
  shiftDays_one : ∀ y, gregorian.shiftDays x 1 = .ok y → Date.IsDayAfter x.date y.date
  /-- Shifts in a row add up. -/
  shiftDays_add : ∀ m n y, gregorian.shiftDays x m = .ok y →
    gregorian.shiftDays y n = gregorian.shiftDays x (m + n)
  /-- A shift is undone by the opposite one. -/
  shiftDays_neg : ∀ n y, gregorian.shiftDays x n = .ok y → gregorian.shiftDays y (-n) = .ok x
  /-- The beginning of the month is as many days back as the day of the month has before it. -/
  beginningOfMonth_ok : ∃ y, gregorian.beginningOfMonth x = .ok y ∧
    gregorian.shiftDays x (1 - (gregorian.day x).toInt) = .ok y
  /-- Only the very last month has no end. -/
  endOfMonth_error_iff : (∃ e, gregorian.endOfMonth x = .error e) ↔
    x.date.year = 262142 ∧ x.date.month = 12
  /-- The end of the month lies in the month, and the day after it is the first of another. -/
  endOfMonth_ok : ∀ y, gregorian.endOfMonth x = .ok y →
    Date.SameMonth x.date y.date ∧ ∃ z, gregorian.shiftDays y 1 = .ok z ∧ gregorian.day z = 1
  /-- Whatever step fails, it fails for want of a date. -/
  fault : ∀ a e, gregorian.step x a = .error e → e = .invalidDate

/-- Away from leap seconds the steps from every moment count days. -/
theorem countsDays (hx : ¬ x.time.IsLeap) : CountsDays x where
  shiftDays_isOk_iff n := by
    constructor
    · rintro ⟨y, hy⟩
      exact ⟨y.date, ((shiftDays_eq_ok_iff hx).mp hy).2⟩
    · rintro ⟨d, hd⟩
      exact ⟨⟨d, x.time⟩, (shiftDays_eq_ok_iff hx).mpr ⟨rfl, hd⟩⟩
  shiftDays_ok n y hy := by
    have hd := ((shiftDays_eq_ok_iff hx).mp hy).2
    have hwy : ((gregorian.weekday y).toNat : Int) = y.date.weekday := dates.toNat_weekday y.date
    have hwx : ((gregorian.weekday x).toNat : Int) = x.date.weekday := dates.toNat_weekday x.date
    rw [hwy, hwx]
    exact ⟨hd, Date.weekday_of_dayNumber hd⟩
  shiftDays_one y hy := Date.isDayAfter_iff.mpr ((shiftDays_eq_ok_iff hx).mp hy).2
  shiftDays_add m n y hy := by
    obtain ⟨ht, hd⟩ := (shiftDays_eq_ok_iff hx).mp hy
    refine step_congr (a := .shiftDays n) (b := .shiftDays (m + n)) (by rwa [ht]) ht ?_
    intro k
    rw [DayLine.moves_shiftDays_iff, DayLine.moves_shiftDays_iff, hd, Int.add_assoc]
  shiftDays_neg n y hy := by
    obtain ⟨ht, hd⟩ := (shiftDays_eq_ok_iff hx).mp hy
    exact (shiftDays_eq_ok_iff (by rwa [ht])).mpr ⟨ht.symm, by omega⟩
  beginningOfMonth_ok := by
    have hday : (gregorian.day x).toInt = x.date.day := dates.toInt_day x.date
    refine ⟨_, rfl, (shiftDays_eq_ok_iff hx).mpr ⟨rfl, ?_⟩⟩
    have hfirst := x.date.dayNumber_firstOfMonth
    rw [hday]
    show x.date.firstOfMonth.dayNumber = _
    omega
  endOfMonth_error_iff := by
    constructor
    · rintro ⟨e, he⟩
      have hno := ((step_eq_error_iff (a := .endOfMonth) hx).mp he).2
      by_cases hl : x.date.IsLastMonth
      · exact hl
      · exact absurd ⟨_, DayLine.moves_endOfMonth_iff.mpr ⟨hl, rfl⟩⟩ hno
    · intro hl
      exact ⟨_, endOfMonth_of_isLastMonth hl⟩
  endOfMonth_ok y hy := by
    obtain ⟨ht, hm⟩ := (step_eq_ok_iff (a := .endOfMonth) hx).mp hy
    obtain ⟨hl, hd⟩ := DayLine.moves_endOfMonth_iff.mp hm
    have hlast : y.date = x.date.lastOfMonth := Date.dayNumber_injective hd
    obtain ⟨next, hnext, hday⟩ := DayLine.beginsMonth_of_lastOfMonth hl
    refine ⟨by rw [hlast]; exact x.date.sameMonth_lastOfMonth, ⟨next, y.time⟩, ?_, ?_⟩
    · exact (shiftDays_eq_ok_iff (by rwa [ht])).mpr ⟨rfl, by rw [hd]; exact hnext⟩
    · show Int32.ofInt next.day = 1
      rw [hday]
      rfl
  fault _ _ h := fault_eq_of_step h

/-- **Journeys follow the count of days.**  A journey from a moment away from leap seconds leads to
a moment that the calendar has, at the same time of day; its day number is where the steps lead on
the line of days, the failing ones left out; and from there the calendar goes on by counting. -/
theorem journey_counts_days {x : DateTime} (hx : ¬ x.time.IsLeap) (steps : List Step) :
    let y := gregorian.destination x steps
    DateTime.ofFields? y.date.year y.date.month y.date.day
        x.time.hour x.time.minute x.time.second x.time.nanosecond = some y ∧
      (∀ n, Travels x.date.dayNumber steps n ↔ y.date.dayNumber = n) ∧
      CountsDays y := by
  intro y
  have ht : y.time = x.time := time_destination hx steps
  have hy : ¬ y.time.IsLeap := by rwa [ht]
  refine ⟨?_, fun n => travels_iff hx, countsDays hy⟩
  rw [← ht]
  exact y.ofFields?_of_not_isLeap hy

/-- From the last February days of a leap year on to its 1 March and to the end of that month; then
a shift by as many days as 64 bits hold fails, and a hundred years back another 1 March begins.
From there the number of days in between leads on again. -/
theorem journey_counts_days_leap_year :
    let x : DateTime := ⟨⟨2024, 2, 28, by decide, by decide, by decide⟩,
      ⟨49510, 500000000, by decide, by decide⟩⟩
    let steps : List Step := [.shiftDays 2, .endOfMonth, .shiftDays 9223372036854775807,
      .shiftDays (-36525), .beginningOfMonth]
    let y := gregorian.destination x steps
    DateTime.ofFields? 1924 3 1 13 45 10 500000000 = some y ∧
      Travels x.date.dayNumber steps 702421 ∧
      ∃ z, gregorian.shiftDays y 36525 = .ok z := by
  intro x steps y
  obtain ⟨hfields, htravels, hcount⟩ := journey_counts_days (x := x) (by decide) steps
  have hdate : y.date = ⟨1924, 3, 1, by decide, by decide, by decide⟩ := by decide +kernel
  rw [hdate] at hfields
  refine ⟨hfields, (htravels _).mpr ?_, (hcount.shiftDays_isOk_iff 36525).mpr ?_⟩
  · rw [hdate]
    decide
  · refine ⟨⟨2024, 3, 1, by decide, by decide, by decide⟩, ?_⟩
    rw [hdate]
    decide

end Gregorian

end Recurrence
