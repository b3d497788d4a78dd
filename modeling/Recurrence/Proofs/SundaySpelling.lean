/-
# The two numbers of Sunday

A schedule may write Sunday as 0 or as 7.  Nothing brings the two numbers to one form.  A Sunday has
both of them as candidate values, the searches compare weekdays modulo seven, and a step leaves out
the 0.  This module shows that the three together make the numbers one weekday.

* `Condition.HoldsOnWeekday` : what a condition asks of the weekday of a moment, without candidate
  values; a step counts the calendar's number of the weekday alone;
* `Condition.SundayRespelled` : the same condition, with another number for Sunday.

Respelling changes no meaning (`Condition.SundayRespelled.holdsOnWeekday_iff`).  So it changes no
answer either, wherever there is one (`Condition.sunday_zero_or_seven`).
-/
import Mathlib.Data.List.Forall2
import Recurrence.Proofs.ConditionOrder
import Recurrence.Proofs.Gregorian.Meaning

namespace Recurrence

variable {τ : Type} {C : Calendar τ} {t : τ} {v w w' : Int32}

/-! ## Numbers of weekdays -/

namespace Calendar

/-- Weekdays have the numbers 1 to 7, and the field holds them. -/
structure NumbersWeekdays (C : Calendar τ) : Prop where
  weekday_mem : ∀ t, 1 ≤ (C.weekday t).toNat ∧ (C.weekday t).toNat ≤ 7
  field_eq : ∀ t, (C.field t .weekday).toInt = (C.weekday t).toNat

/-- The number stands for the weekday: a Sunday has two. -/
def ReadsWeekday (C : Calendar τ) (t : τ) (v : Int32) : Prop :=
  v = C.field t .weekday ∨ (C.weekday t = sunday ∧ v = 0)

/-- A schedule writes Sunday with this number. -/
def WritesSunday (w : Int32) : Prop := w = 0 ∨ w = 7

namespace NumbersWeekdays

variable (hC : C.NumbersWeekdays)
include hC

/-- Only the second number of Sunday is zero. -/
theorem field_ne_zero (t : τ) : C.field t .weekday ≠ 0 := by
  have hmem := hC.weekday_mem t
  have hfield := hC.field_eq t
  rw [ne_eq, ← Int32.toInt_inj, Int32.toInt_zero]
  omega

theorem field_eq_seven_iff : C.field t .weekday = 7 ↔ C.weekday t = sunday := by
  have hfield := hC.field_eq t
  rw [eq_sunday_iff, ← Int32.toInt_inj, hfield]
  show ((C.weekday t).toNat : Int) = 7 ↔ _
  omega

/-- The candidate values are the numbers that stand for the weekday. -/
theorem mem_candidates_iff : v ∈ C.candidates t .weekday ↔ C.ReadsWeekday t v := by
  by_cases hsun : C.weekday t = sunday
  · rw [C.candidates_sunday hsun, ReadsWeekday, hC.field_eq_seven_iff.mpr hsun, List.mem_cons,
      List.mem_singleton, and_iff_right hsun, or_comm]
  · rw [C.candidates_weekday hsun, List.mem_singleton, ReadsWeekday]
    exact (or_iff_left fun h => hsun h.1).symm

/-- Either number of Sunday stands for the weekday of Sundays, and of no other day. -/
theorem readsWeekday_iff (hw : WritesSunday w) : C.ReadsWeekday t w ↔ C.weekday t = sunday := by
  rcases hw with rfl | rfl
  · rw [ReadsWeekday, and_iff_left rfl]
    exact or_iff_right fun h => hC.field_ne_zero t h.symm
  · rw [ReadsWeekday, eq_comm, hC.field_eq_seven_iff]
    exact or_iff_left fun h => absurd h.2 (by decide)

end NumbersWeekdays

/-! ## Searches for Sunday -/

/-- Weekdays are compared modulo seven, which does not tell the numbers of Sunday apart. -/
theorem sameWeekday_sunday_iff (hw : WritesSunday w) (number : UInt32) :
    SameWeekday number w ↔ number.toInt32 % 7 = 0 := by
  rcases hw with rfl | rfl <;>
    exact ⟨fun h => h.2.2, fun h => ⟨by decide, by decide, h⟩⟩

/-- Both numbers of Sunday fall on the same days. -/
theorem WritesSunday.sameWeekday_iff (hw : WritesSunday w) (hw' : WritesSunday w')
    (number : UInt32) : SameWeekday number w ↔ SameWeekday number w' :=
  (sameWeekday_sunday_iff hw number).trans (sameWeekday_sunday_iff hw' number).symm

/-- A search back depends on the weekdays it accepts, not on their spelling. -/
theorem lastWeekday_congr (h : ∀ number, SameWeekday number w ↔ SameWeekday number w') (t : τ) :
    C.lastWeekday t w = C.lastWeekday t w' := by
  have haccept : (fun number => decide (SameWeekday number w))
      = fun number => decide (SameWeekday number w') := by
    funext number
    exact decide_eq_decide.mpr (h number)
  rw [lastWeekday, lastWeekday, haccept]

/-- The walk on sees a weekday only through the days that fall on it. -/
theorem countForward_congr (h : ∀ number, SameWeekday number w ↔ SameWeekday number w')
    (month : Int32) (n : Nat) (remaining : Int32) (t : τ) :
    C.countForward month w n remaining t = C.countForward month w' n remaining t := by
  induction n generalizing remaining t with
  | zero => rfl
  | succ n ih => simp only [countForward, h, ih]

/-- So does a search on. -/
theorem nthWeekday_congr (h : ∀ number, SameWeekday number w ↔ SameWeekday number w') (t : τ)
    (nth : Int32) : C.nthWeekday t w nth = C.nthWeekday t w' nth := by
  simp only [nthWeekday, countForward_congr h]

end Calendar

namespace Condition

open Calendar (WritesSunday)

variable {c c' : Condition} {l l' : List Condition}

/-! ## Conditions on the weekday -/

/-- The condition holds on the weekday of a moment.  On a Sunday numbers and ranges meet the 0 as
well; steps count the calendar's number alone. -/
def HoldsOnWeekday (C : Calendar τ) (t : τ) : Condition → Prop
  | any => True
  | number n => C.ReadsWeekday t n
  | range first last => ∃ v, C.ReadsWeekday t v ∧ InRange first last v
  | step base divisor => base.Progresses divisor (C.field t .weekday)
  | lastWeekday w => C.lastWeekday t w = .ok (some (C.day t))
  | nthWeekday w nth => C.nthWeekday t w nth = .ok (some (C.day t))
  | lastDay | nearestWorkday _ => False

/-- An answer about the day that a search finds is yes exactly if it finds that day. -/
theorem found_eq_true_iff {r : Except Fault (Option Int32)} {d : Int32} :
    (do return (← r) = some d) = (.ok true : Except Fault Bool) ↔ r = .ok (some d) := by
  rcases r with e | x
  · exact iff_of_false nofun nofun
  · show Except.ok (decide (x = some d)) = .ok true ↔ _
    rw [Except.ok.injEq, Except.ok.injEq, decide_eq_true_eq]

/-- A condition holds on a weekday if it holds for some candidate value. -/
theorem exists_holds_iff (hC : C.NumbersWeekdays) (c : Condition) :
    (∃ v ∈ C.candidates t .weekday, c.holds C t .weekday v = .ok true) ↔
      c.HoldsOnWeekday C t := by
  simp only [hC.mem_candidates_iff]
  have hread : C.ReadsWeekday t (C.field t .weekday) := Or.inl rfl
  have hconst : ∀ q : Prop, (∃ v, C.ReadsWeekday t v ∧ q) ↔ q := fun q =>
    exists_and_right.trans (and_iff_right ⟨_, hread⟩)
  cases c with
  | any => exact (hconst _).trans (iff_of_true rfl trivial)
  | number n =>
      simp only [holds, Except.ok.injEq, decide_eq_true_eq]
      constructor
      · rintro ⟨v, hv, rfl⟩
        exact hv
      · intro hn
        exact ⟨n, hn, rfl⟩
  | range first last => simp only [holds, Except.ok.injEq, decide_eq_true_eq, HoldsOnWeekday]
  | step base divisor =>
      simp only [holds, Except.ok.injEq, decide_eq_true_eq, true_and]
      constructor
      · -- the second number of a Sunday is left out
        rintro ⟨v, rfl | ⟨-, hv⟩, hne, hprogress⟩
        · exact hprogress
        · exact absurd hv hne
      · intro hprogress
        exact ⟨_, hread, hC.field_ne_zero t, hprogress⟩
  | lastDay | nearestWorkday =>
      -- conditions on the day of the month say no on the weekday
      refine iff_of_false ?_ id
      rintro ⟨v, -, hyes⟩
      cases show (Except.ok false : Except Fault Bool) = .ok true from hyes
  | lastWeekday w => exact (hconst _).trans found_eq_true_iff
  | nthWeekday w nth => exact (hconst _).trans found_eq_true_iff

/-- **A list of conditions is met on a weekday if one of them holds on it.** -/
theorem answers_weekday (hC : C.NumbersWeekdays) (t : τ) (l : List Condition) :
    Answers (anyHolds C t .weekday l) (∃ c ∈ l, c.HoldsOnWeekday C t) := by
  have h : Answers (anyHolds C t .weekday l)
      (∃ v ∈ C.candidates t .weekday, ∃ c ∈ l, c.holds C t .weekday v = .ok true) := by
    refine Answers.anyHolds fun v c b hb => ?_
    rw [hb, Except.ok.injEq]
  refine h.congr ?_
  constructor
  · rintro ⟨v, hv, c, hc, hyes⟩
    exact ⟨c, hc, (exists_holds_iff hC c).mp ⟨v, hv, hyes⟩⟩
  · rintro ⟨c, hc, hholds⟩
    obtain ⟨v, hv, hyes⟩ := (exists_holds_iff hC c).mpr hholds
    exact ⟨v, hv, c, hc, hyes⟩

/-! ## Respelling -/

/-- The same condition, with either number of Sunday in the place of the other. -/
inductive SundayRespelled : Condition → Condition → Prop
  | kept (c : Condition) : SundayRespelled c c
  | number {w w' : Int32} (hw : WritesSunday w) (hw' : WritesSunday w') :
    SundayRespelled (number w) (number w')
  | lastWeekday {w w' : Int32} (hw : WritesSunday w) (hw' : WritesSunday w') :
    SundayRespelled (lastWeekday w) (lastWeekday w')
  | nthWeekday {w w' : Int32} (hw : WritesSunday w) (hw' : WritesSunday w') (nth : Int32) :
    SundayRespelled (nthWeekday w nth) (nthWeekday w' nth)

namespace SundayRespelled

theorem symm (h : SundayRespelled c c') : SundayRespelled c' c := by
  cases h with
  | kept => exact kept c
  | number hw hw' => exact number hw' hw
  | lastWeekday hw hw' => exact lastWeekday hw' hw
  | nthWeekday hw hw' nth => exact nthWeekday hw' hw nth

/-- A respelled condition means the same. -/
theorem holdsOnWeekday_iff (h : SundayRespelled c c') (hC : C.NumbersWeekdays) :
    c.HoldsOnWeekday C t ↔ c'.HoldsOnWeekday C t := by
  cases h with
  | kept => exact Iff.rfl
  | number hw hw' => exact (hC.readsWeekday_iff hw).trans (hC.readsWeekday_iff hw').symm
  | lastWeekday hw hw' =>
      rw [HoldsOnWeekday, HoldsOnWeekday, Calendar.lastWeekday_congr (hw.sameWeekday_iff hw')]
  | nthWeekday hw hw' nth =>
      rw [HoldsOnWeekday, HoldsOnWeekday, Calendar.nthWeekday_congr (hw.sameWeekday_iff hw')]

/-- A respelled condition has an answer where the condition has one, for every candidate value. -/
theorem exists_answer (h : SundayRespelled c c') (hok : ∃ b, c.holds C t .weekday v = .ok b) :
    ∃ b, c'.holds C t .weekday v = .ok b := by
  cases h with
  | kept => exact hok
  | number => exact ⟨_, rfl⟩
  | lastWeekday hw hw' =>
      rwa [holds, Calendar.lastWeekday_congr (hw.sameWeekday_iff hw')] at hok
  | nthWeekday hw hw' nth =>
      rwa [holds, Calendar.nthWeekday_congr (hw.sameWeekday_iff hw')] at hok

end SundayRespelled

/-! ## Respelled lists -/

/-- Members of the second list have their partners in the first. -/
theorem exists_mem_of_forall₂ {α β : Type} {R : α → β → Prop} {xs : List α} {ys : List β}
    (h : List.Forall₂ R xs ys) {y : β} (hy : y ∈ ys) : ∃ x ∈ xs, R x y := by
  induction h with
  | nil => cases hy
  | cons hr _ ih =>
      rcases List.mem_cons.mp hy with rfl | hy
      · exact ⟨_, List.mem_cons_self, hr⟩
      · obtain ⟨x, hx, hxy⟩ := ih hy
        exact ⟨x, List.mem_cons_of_mem _ hx, hxy⟩

theorem forall₂_respelled_symm (h : List.Forall₂ SundayRespelled l l') :
    List.Forall₂ SundayRespelled l' l :=
  (h.imp fun _ _ hc => hc.symm).flip

/-- A condition that holds has a respelling that holds. -/
theorem exists_holdsOnWeekday_of_respelled (hC : C.NumbersWeekdays)
    (h : List.Forall₂ SundayRespelled l l') (hl : ∃ c' ∈ l', c'.HoldsOnWeekday C t) :
    ∃ c ∈ l, c.HoldsOnWeekday C t := by
  obtain ⟨c', hc', hholds⟩ := hl
  obtain ⟨c, hc, hr⟩ := exists_mem_of_forall₂ h hc'
  exact ⟨c, hc, (hr.holdsOnWeekday_iff hC).mpr hholds⟩

/-- No pair fails in a respelled list if none does in the list. -/
theorem Decided.of_respelled (hl : Decided C t .weekday l)
    (h : List.Forall₂ SundayRespelled l l') : Decided C t .weekday l' := by
  intro q hq
  obtain ⟨hv, hc'⟩ := mem_pairs.mp hq
  obtain ⟨c, hc, hr⟩ := exists_mem_of_forall₂ h hc'
  exact hr.exists_answer (hl (q.1, c) (mem_pairs.mpr ⟨hv, hc⟩))

/-- **Sunday may be written 0 or 7.**  Where no condition on the weekday fails, a list and its
respellings have one answer, and so has every schedule with them: that one of the conditions holds
on the weekday.  Where some fail, a respelling can hide an answer behind a fault, but it never turns
a yes into a no. -/
theorem sunday_zero_or_seven (hC : C.NumbersWeekdays) (h : List.Forall₂ SundayRespelled l l')
    (t : τ) :
    (Decided C t .weekday l →
      anyHolds C t .weekday l = anyHolds C t .weekday l' ∧
      (∀ s : Schedule,
        Schedule.evaluate { s with weekday := l } C t
          = Schedule.evaluate { s with weekday := l' } C t) ∧
      Decides (anyHolds C t .weekday l) (∃ c ∈ l, c.HoldsOnWeekday C t)) ∧
    ¬ (anyHolds C t .weekday l = .ok true ∧ anyHolds C t .weekday l' = .ok false) ∧
    ¬ (anyHolds C t .weekday l = .ok false ∧ anyHolds C t .weekday l' = .ok true) := by
  have hiff : (∃ c' ∈ l', c'.HoldsOnWeekday C t) ↔ ∃ c ∈ l, c.HoldsOnWeekday C t :=
    ⟨exists_holdsOnWeekday_of_respelled hC h,
      exists_holdsOnWeekday_of_respelled hC (forall₂_respelled_symm h)⟩
  -- both lists ask for the same
  have hl := answers_weekday hC t l
  have hl' := (answers_weekday hC t l').congr hiff
  refine ⟨fun hdecided => ?_, hl.not_contradict hl', fun hno => hl'.not_contradict hl hno.symm⟩
  have hanswer : Decides (anyHolds C t .weekday l) (∃ c ∈ l, c.HoldsOnWeekday C t) :=
    ⟨hdecided.exists_answer, hl⟩
  have hsame : anyHolds C t .weekday l = anyHolds C t .weekday l' :=
    hanswer.unique ⟨(hdecided.of_respelled h).exists_answer, hl'⟩
  refine ⟨hsame, fun s => ?_, hanswer⟩
  refine Schedule.evaluate_eq_of_meets_eq (Eq.refl s.reboot) fun f => ?_
  cases f with
  | weekday => exact hsame
  | second | minute | hour | day | month | year => rfl

/-! ## The Gregorian calendar -/

theorem gregorian_numbersWeekdays : gregorian.NumbersWeekdays where
  weekday_mem x := by
    have hmem := x.date.weekday_bounds
    have hnumber : ((gregorian.weekday x).toNat : Int) = x.date.weekday :=
      dates.toNat_weekday x.date
    omega
  field_eq x := (x.toInt_field .weekday).trans (dates.toNat_weekday x.date).symm

/-- The first Sunday of 2024 is found with either number of Sunday.  On the last Sunday of the
calendar one spelling says yes and the other one fails, since the search for the last Monday fails
there and is made between the two candidate values. -/
theorem sunday_zero_or_seven_sundays :
    let x : DateTime := ⟨⟨2024, 1, 7, by decide, by decide, by decide⟩,
      ⟨0, 0, by decide, by decide⟩⟩
    let y : DateTime := ⟨⟨262142, 12, 30, by decide, by decide, by decide⟩,
      ⟨0, 0, by decide, by decide⟩⟩
    anyHolds gregorian x .weekday [.step .any 2, .nthWeekday 0 1] = .ok true ∧
      anyHolds gregorian x .weekday [.step .any 2, .nthWeekday 7 1] = .ok true ∧
      anyHolds gregorian y .weekday [.number 0, .lastWeekday 1] = .ok true ∧
      anyHolds gregorian y .weekday [.number 7, .lastWeekday 1] = .error .invalidDate ∧
      anyHolds gregorian y .weekday [.number 7, .lastWeekday 1] ≠ .ok false := by
  intro x y
  have hfirst : List.Forall₂ SundayRespelled [.step .any 2, .nthWeekday 0 1]
      [.step .any 2, .nthWeekday 7 1] :=
    .cons (.kept _) (.cons (.nthWeekday (Or.inl rfl) (Or.inr rfl) 1) .nil)
  have hlast : List.Forall₂ SundayRespelled [.number 0, .lastWeekday 1]
      [.number 7, .lastWeekday 1] :=
    .cons (.number (Or.inl rfl) (Or.inr rfl)) (.cons (.kept _) .nil)
  have hfound : gregorian.nthWeekday x 0 1 = .ok (some (gregorian.day x)) := by decide +kernel
  have hdecided : Decided gregorian x .weekday [.step .any 2, .nthWeekday 0 1] := by
    rintro ⟨v, c⟩ hq
    have hc : c = .step .any 2 ∨ c = .nthWeekday 0 1 := by simpa using (mem_pairs.mp hq).2
    rcases hc with rfl | rfl
    · exact ⟨_, rfl⟩
    · exact ⟨true, found_eq_true_iff.mpr hfound⟩
  obtain ⟨hsame, -, hanswer⟩ :=
    (sunday_zero_or_seven gregorian_numbersWeekdays hfirst x).1 hdecided
  have hyes := hanswer.eq_true_iff.mpr ⟨.nthWeekday 0 1, by simp, hfound⟩
  have hyes' : anyHolds gregorian y .weekday [.number 0, .lastWeekday 1] = .ok true := by
    decide +kernel
  refine ⟨hyes, hsame.symm.trans hyes, hyes', by decide +kernel, fun hno => ?_⟩
  exact (sunday_zero_or_seven gregorian_numbersWeekdays hlast y).2.1 ⟨hyes', hno⟩

end Condition

end Recurrence
