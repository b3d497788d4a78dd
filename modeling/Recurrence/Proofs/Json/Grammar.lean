/-
# The grammar of schedules

Which JSON trees are schedules, as a grammar over trees: the forms of the numbers, of the variants
and of the parts, and the table of the parts by name and place (`Json.IsSchedule`).  The grammar
speaks of trees alone and not of what they mean.

* `Json.isCondition_iff` : a tree has the form of a condition exactly if it spells one;
* `Json.reading_accepts_grammar` : the reader accepts exactly the grammar, and one malformed
  condition anywhere refuses the whole tree.
-/
import Recurrence.Proofs.Json.Parts

namespace Recurrence

namespace Json

/-! ## Forms of data -/

/-- An integer that fits a signed 32-bit word. -/
def IsInt32 (j : Json) : Prop := ∃ n : Int, j = .integer n ∧ -2147483648 ≤ n ∧ n ≤ 2147483647

/-- An integer that fits an unsigned 32-bit word. -/
def IsUInt32 (j : Json) : Prop := ∃ n : Int, j = .integer n ∧ 0 ≤ n ∧ n ≤ 4294967295

/-- An array of two elements, each of its own form. -/
def IsPair (A B : Json → Prop) (j : Json) : Prop := ∃ a b, j = .array [a, b] ∧ A a ∧ B b

/-- An object with one member, which has the variant's name and data of a given form. -/
def IsVariant (name : String) (A : Json → Prop) (j : Json) : Prop :=
  ∃ p, j = .object [(name, p)] ∧ A p

/-- An array whose elements all have a given form. -/
def IsArray (A : Json → Prop) (j : Json) : Prop :=
  ∃ elements, j = .array elements ∧ ∀ e ∈ elements, A e

/-! ## Forms of conditions -/

variable (U : String → Json → Prop)

/-- The base of a step; `U` says how variants without data are written. -/
def IsStepBase (j : Json) : Prop := U "Any" j ∨ IsVariant "Range" (IsPair IsInt32 IsInt32) j

/-- An anchor. -/
def IsDayAnchor (j : Json) : Prop := IsVariant "Day" IsInt32 j ∨ U "LastDayOfMonth" j

/-- A condition. -/
def IsCondition (j : Json) : Prop :=
  U "Any" j ∨ U "LastDayOfMonth" j ∨
  IsVariant "Number" IsInt32 j ∨
  IsVariant "Range" (IsPair IsInt32 IsInt32) j ∨
  IsVariant "Step" (IsPair (IsStepBase U) IsUInt32) j ∨
  IsVariant "NearestWeekdayToDay" (IsDayAnchor U) j ∨
  IsVariant "LastWeekdayOccurrence" IsInt32 j ∨
  IsVariant "NthWeekdayOccurrence" (IsPair IsInt32 IsInt32) j

/-- A value for a part of a schedule: true or false for the boot flag, an array of conditions for a
field. -/
def IsPart : Slot → Json → Prop
  | .reboot, j => ∃ value, j = .bool value
  | .conditions _, j => IsArray (IsCondition U) j

/-! ## Forms of schedules -/

/-- The names of the parts in their order. -/
def keys : List (String × Slot) :=
  [("reboot", .reboot), ("second", .conditions .second), ("minute", .conditions .minute),
    ("hour", .conditions .hour), ("day", .conditions .day), ("month", .conditions .month),
    ("weekday", .conditions .weekday), ("year", .conditions .year)]

/-- The tree gives a value for a part: an object by the part's name, an array by its place. -/
inductive Gives : Json → Slot → Json → Prop
  | member {members : List (String × Json)} {name : String} {p : Slot} {v : Json}
      (hkey : (name, p) ∈ keys) (hv : (name, v) ∈ members) : Gives (.object members) p v
  | element {elements : List Json} {i : Nat} {name : String} {p : Slot} {v : Json}
      (hkey : keys[i]? = some (name, p)) (hv : elements[i]? = some v) :
      Gives (.array elements) p v

/-- The tree is an object, or an array with no more elements than there are parts. -/
inductive IsContainer : Json → Prop
  | object (members : List (String × Json)) : IsContainer (.object members)
  | array (elements : List Json) (h : elements.length ≤ 8) : IsContainer (.array elements)

/-- The tree is a schedule: all that it gives for a part has the form of the part.  Members with
other names may hold anything. -/
structure IsSchedule (j : Json) : Prop where
  container : IsContainer j
  parts : ∀ p v, Gives j p v → IsPart IsUnit p v

/-- No two members of the tree itself have one name. -/
def DistinctNames : Json → Prop
  | object members => (members.map Prod.fst).Nodup
  | _ => True

/-! ## Forms and spellings -/

variable {U} {j : Json}

/-- The grammar of signed words is that of their numbers. -/
theorem isInt32_iff : IsInt32 j ↔ ∃ v : Int32, j = .integer v.toInt := by
  constructor
  · rintro ⟨n, rfl, h₁, h₂⟩
    exact ⟨.ofInt n, by rw [Int32.toInt_ofInt_of_le h₁ (by omega)]⟩
  · rintro ⟨v, rfl⟩
    have h₁ := Int32.le_toInt v
    have h₂ := Int32.toInt_lt v
    exact ⟨_, rfl, by omega, by omega⟩

theorem isUInt32_iff : IsUInt32 j ↔ ∃ v : UInt32, j = .integer v.toNat := by
  constructor
  · rintro ⟨n, rfl, h₁, h₂⟩
    refine ⟨.ofNat n.toNat, ?_⟩
    rw [UInt32.toNat_ofNat_of_lt' (by rw [UInt32.size]; omega), Int.toNat_of_nonneg h₁]
  · rintro ⟨v, rfl⟩
    have h := v.toNat_lt
    exact ⟨_, rfl, by omega, by omega⟩

theorem isPair_isInt32_iff :
    IsPair IsInt32 IsInt32 j ↔
      ∃ v w : Int32, j = .array [.integer v.toInt, .integer w.toInt] := by
  simp only [IsPair, isInt32_iff]
  constructor
  · rintro ⟨_, _, rfl, ⟨v, rfl⟩, ⟨w, rfl⟩⟩
    exact ⟨v, w, rfl⟩
  · rintro ⟨v, w, rfl⟩
    exact ⟨_, _, rfl, ⟨v, rfl⟩, ⟨w, rfl⟩⟩

/-- The grammar of bases describes their spellings. -/
theorem isStepBase_iff : IsStepBase U j ↔ ∃ base, StepBase.Spells U j base := by
  simp only [IsStepBase, IsVariant, isPair_isInt32_iff]
  constructor
  · rintro (h | ⟨_, rfl, first, last, rfl⟩)
    · exact ⟨_, .any h⟩
    · exact ⟨_, .range first last⟩
  · rintro ⟨base, h⟩
    cases h with
    | any h => exact Or.inl h
    | range first last => exact Or.inr ⟨_, rfl, first, last, rfl⟩

theorem isDayAnchor_iff : IsDayAnchor U j ↔ ∃ anchor, DayAnchor.Spells U j anchor := by
  simp only [IsDayAnchor, IsVariant, isInt32_iff]
  constructor
  · rintro (⟨_, rfl, number, rfl⟩ | h)
    · exact ⟨_, .day number⟩
    · exact ⟨_, .lastDay h⟩
  · rintro ⟨anchor, h⟩
    cases h with
    | day number => exact Or.inl ⟨_, rfl, number, rfl⟩
    | lastDay h => exact Or.inr h

/-- **A tree has the form of a condition exactly if it spells one.** -/
theorem isCondition_iff : IsCondition U j ↔ ∃ c, Condition.Spells U j c := by
  simp only [IsCondition, IsVariant, isPair_isInt32_iff, isInt32_iff]
  -- one alternative of the grammar for each constructor
  constructor
  · rintro (h | h | ⟨_, rfl, n, rfl⟩ | ⟨_, rfl, first, last, rfl⟩ | ⟨_, rfl, b, d, rfl, hb, hd⟩ |
      ⟨a, rfl, ha⟩ | ⟨_, rfl, weekday, rfl⟩ | ⟨_, rfl, weekday, nth, rfl⟩)
    · exact ⟨_, .any h⟩
    · exact ⟨_, .lastDay h⟩
    · exact ⟨_, .number n⟩
    · exact ⟨_, .range first last⟩
    · obtain ⟨base, hbase⟩ := isStepBase_iff.mp hb
      obtain ⟨divisor, rfl⟩ := isUInt32_iff.mp hd
      exact ⟨_, .step hbase divisor⟩
    · obtain ⟨anchor, hanchor⟩ := isDayAnchor_iff.mp ha
      exact ⟨_, .nearestWorkday hanchor⟩
    · exact ⟨_, .lastWeekday weekday⟩
    · exact ⟨_, .nthWeekday weekday nth⟩
  · rintro ⟨c, h⟩
    cases h with
    | any h => exact Or.inl h
    | lastDay h => exact Or.inr (Or.inl h)
    | number n => simp
    | range first last => simp
    | step hbase divisor =>
        have hb := isStepBase_iff.mpr ⟨_, hbase⟩
        have hd := isUInt32_iff.mpr ⟨divisor, rfl⟩
        simp [IsPair, hb, hd]
    | nearestWorkday hanchor =>
        have ha := isDayAnchor_iff.mpr ⟨_, hanchor⟩
        simp [ha]
    | lastWeekday weekday => simp
    | nthWeekday weekday nth => simp

/-- Elements that each stand for something stand for a list. -/
theorem exists_forall₂_iff {α β : Type} {R : α → β → Prop} {xs : List α} :
    (∃ ys, List.Forall₂ R xs ys) ↔ ∀ x ∈ xs, ∃ y, R x y := by
  induction xs with
  | nil => simp
  | cons x xs ih =>
      rw [List.forall_mem_cons, ← ih]
      constructor
      · rintro ⟨_, _ | ⟨hy, hys⟩⟩
        exact ⟨⟨_, hy⟩, _, hys⟩
      · rintro ⟨⟨y, hy⟩, ys, hys⟩
        exact ⟨y :: ys, .cons hy hys⟩

/-- Lists of conditions are arrays of them. -/
theorem isArray_isCondition_iff :
    IsArray (IsCondition U) j ↔ ∃ l, Condition.SpellsList U j l := by
  simp only [IsArray, Condition.SpellsList, isCondition_iff, ← exists_forall₂_iff]
  constructor
  · rintro ⟨elements, rfl, l, hl⟩
    exact ⟨l, elements, rfl, hl⟩
  · rintro ⟨l, elements, rfl, hl⟩
    exact ⟨elements, rfl, l, hl⟩

/-- A tree has the form of a part exactly if it spells a value for it. -/
theorem isPart_iff {p : Slot} : IsPart U p j ↔ ∃ a : Setting, a.slot = p ∧ a.Spells U j := by
  cases p with
  | reboot =>
      constructor
      · rintro ⟨value, rfl⟩
        exact ⟨.reboot value, rfl, rfl⟩
      · rintro ⟨_ | _, hslot, ha⟩
        · exact ⟨_, ha⟩
        · cases hslot
  | conditions f =>
      rw [IsPart, isArray_isCondition_iff]
      constructor
      · rintro ⟨l, hl⟩
        exact ⟨.conditions f l, rfl, hl⟩
      · rintro ⟨_ | _, hslot, ha⟩
        · cases hslot
        · exact ⟨_, ha⟩

/-! ## Names and places of parts -/

theorem keys_eq : keys = Slot.all.map fun p => (p.name, p) := rfl

/-- The table has the name of every part and no other. -/
theorem mem_keys {name : String} {p : Slot} : (name, p) ∈ keys ↔ name = p.name := by
  simp only [keys_eq, List.mem_map, Prod.mk.injEq]
  constructor
  · rintro ⟨_, -, rfl, rfl⟩
    rfl
  · rintro rfl
    exact ⟨p, p.mem_all, rfl, rfl⟩

/-- The table has the parts at their places. -/
theorem getElem?_keys {i : Nat} {name : String} {p : Slot} :
    keys[i]? = some (name, p) ↔ i = p.position ∧ name = p.name := by
  simp only [keys_eq, List.getElem?_map, Option.map_eq_some_iff, Schedule.getElem?_all_iff,
    Prod.mk.injEq]
  constructor
  · rintro ⟨_, rfl, rfl, rfl⟩
    exact ⟨rfl, rfl⟩
  · rintro ⟨rfl, rfl⟩
    exact ⟨p, rfl, rfl, rfl⟩

/-! ## Reading -/

variable {given : Slot → Option Json}

/-- Objects and short arrays are what parts can be taken from. -/
theorem isContainer_iff : IsContainer j ↔ ∃ given, Schedule.givenParts? j = some given := by
  constructor
  · rintro (members | ⟨elements, h⟩)
    · exact ⟨_, rfl⟩
    · exact ⟨_, if_pos h⟩
  · rintro ⟨given, h⟩
    cases j with
    | object members => exact .object members
    | array elements =>
        simp only [Schedule.givenParts?, Option.ite_none_right_eq_some] at h
        exact .array elements h.1
    | _ => cases h

/-- What the reader finds for a part is what the tree gives for it. -/
theorem gives_iff (hj : j.DistinctNames) (hgiven : Schedule.givenParts? j = some given)
    {p : Slot} {v : Json} : Gives j p v ↔ given p = some v := by
  cases j with
  | object members =>
      cases hgiven
      rw [lookup_eq_some_iff_mem hj]
      constructor
      · rintro ⟨hkey, hv⟩
        rw [← mem_keys.mp hkey]
        exact hv
      · exact .member (mem_keys.mpr rfl)
  | array elements =>
      simp only [Schedule.givenParts?, Option.ite_none_right_eq_some, Option.some.injEq] at hgiven
      obtain ⟨-, rfl⟩ := hgiven
      show _ ↔ elements[p.position]? = some v
      constructor
      · -- a row of the table is at the position of its part
        rintro (_ | ⟨hkey, hv⟩)
        rw [← (getElem?_keys.mp hkey).1]
        exact hv
      · exact .element (getElem?_keys.mpr ⟨rfl, rfl⟩)
  | _ => cases hgiven

/-- A part can be read exactly if what is given for it has the form of the part. -/
theorem exists_partOfGiven?_iff {p : Slot} {v : Option Json} :
    (∃ a, Schedule.partOfGiven? p v = some a) ↔ ∀ j, v = some j → IsPart IsUnit p j := by
  cases v with
  | none => simp [Schedule.partOfGiven?_none]
  | some j => simp [Schedule.partOfGiven?_some_iff, isPart_iff]

/-- **A tree with distinct names is a schedule exactly if the grammar says so.** -/
theorem exists_ofJson?_iff (hj : j.DistinctNames) :
    (∃ s, Schedule.ofJson? j = some s) ↔ IsSchedule j := by
  have hbind : (∃ s, Schedule.ofJson? j = some s) ↔
      ∃ given, Schedule.givenParts? j = some given ∧ ∃ s, Schedule.ofGiven? given = some s := by
    simp only [Schedule.ofJson?, Option.bind_eq_bind, Option.bind_eq_some_iff]
    exact exists_comm.trans (by simp only [exists_and_left])
  rw [hbind]
  constructor
  · rintro ⟨given, hgiven, hs⟩
    refine ⟨isContainer_iff.mpr ⟨given, hgiven⟩, ?_⟩
    intro p v hv
    exact exists_partOfGiven?_iff.mp (Schedule.exists_ofGiven?_iff.mp hs p) v
      ((gives_iff hj hgiven).mp hv)
  · rintro ⟨hcontainer, hparts⟩
    obtain ⟨given, hgiven⟩ := isContainer_iff.mp hcontainer
    refine ⟨given, hgiven, Schedule.exists_ofGiven?_iff.mpr ?_⟩
    intro p
    refine exists_partOfGiven?_iff.mpr ?_
    intro v hv
    exact hparts p v ((gives_iff hj hgiven).mpr hv)

/-- **The reader accepts exactly the grammar**, of schedules and of conditions, and one malformed
condition at any place of any list refuses the whole tree. -/
theorem reading_accepts_grammar {j : Json} (hj : j.DistinctNames) :
    ((∃ s, Schedule.ofJson? j = some s) ↔ IsSchedule j) ∧
      (∀ e, (∃ c, Condition.ofJson? e = some c) ↔ IsCondition IsUnit e) ∧
      ∀ f before e after, Gives j (.conditions f) (.array (before ++ e :: after)) →
        ¬ IsCondition IsUnit e → Schedule.ofJson? j = none := by
  refine ⟨exists_ofJson?_iff hj, ?_, ?_⟩
  · intro e
    simp only [isCondition_iff, Condition.ofJson?_eq_some_iff]
  · intro f before e after hgives he
    -- the array is an array of conditions only if each of its elements is one
    rw [← Option.not_isSome_iff_eq_none, Option.isSome_iff_exists, exists_ofJson?_iff hj]
    intro hs
    obtain ⟨_, hv, hall⟩ := hs.parts _ _ hgives
    cases hv
    exact he (hall e (by simp))

/-- A range with one bound refuses the tree that has it among its days. -/
theorem reading_accepts_grammar_open_range :
    let e := object [("Range", .array [.integer 1])]
    let j := object [("note", .null), ("day", .array [.string "Any", e])]
    j.DistinctNames ∧ Gives j (.conditions .day) (.array [.string "Any", e]) ∧
      ¬ IsCondition IsUnit e ∧ Schedule.ofJson? j = none := by
  intro e j
  have hj : j.DistinctNames := by simp [j, DistinctNames]
  have hgives : Gives j (.conditions .day) (.array [.string "Any", e]) :=
    .member (mem_keys.mpr rfl) (by simp [Slot.name, Field.name])
  have he : ¬ IsCondition IsUnit e := by simp [e, IsCondition, IsVariant, IsPair, IsUnit]
  exact ⟨hj, hgives, he, (reading_accepts_grammar hj).2.2 .day [.string "Any"] e [] hgives he⟩

end Json

end Recurrence
