/-
# The parts of a schedule one by one

A schedule is read part by part, and so it can be described: each of its eight parts has a value
(`Schedule.setting`), and a tree gives values for some of the parts.

* `Schedule.ofGiven?_eq_some_iff_parts` : a schedule is read exactly if each of its parts is;
* `Schedule.partOfGiven?_some_iff` : a given part is read as what the tree spells;
* `Json.lookup_eq_some_iff_mem`, `Json.lookup_perm` : an object whose names are distinct
  gives its members, in whatever order they stand.
-/
import Recurrence.Json.Schedule
import Recurrence.Proofs.Json.Spelling
import Recurrence.Schedule.Draft

namespace Recurrence

open Json (IsBare IsUnit)

/-! ## Members of objects -/

namespace Json

variable {members before after : List (String × Json)} {name key : String} {v : Json}

/-- If the names are distinct, what is found under a name is the member of that name. -/
theorem lookup_eq_some_iff_mem (hd : (members.map Prod.fst).Nodup) :
    members.lookup key = some v ↔ (key, v) ∈ members := by
  rw [List.lookup_eq_some_iff]
  constructor
  · rintro ⟨before, after, rfl, -⟩
    simp
  · intro h
    obtain ⟨before, after, rfl⟩ := List.append_of_mem h
    refine ⟨before, after, rfl, ?_⟩
    intro q hq
    rw [List.map_append, List.nodup_append] at hd
    have hne := hd.2.2 q.1 (List.mem_map_of_mem hq) key (by simp)
    simpa [bne_iff_ne] using hne.symm

theorem lookup_eq_none_iff : members.lookup key = none ↔ key ∉ members.map Prod.fst := by
  rw [List.lookup_eq_none_iff, List.mem_map]
  constructor
  · rintro h ⟨q, hq, rfl⟩
    simpa using h q hq
  · intro h q hq
    have hne : key ≠ q.1 := fun he => h ⟨q, hq, he.symm⟩
    simpa using hne

/-- The order of the members does not matter. -/
theorem lookup_perm {members' : List (String × Json)} (h : members.Perm members')
    (hd : (members.map Prod.fst).Nodup) (key : String) :
    members.lookup key = members'.lookup key := by
  ext v
  rw [lookup_eq_some_iff_mem hd, lookup_eq_some_iff_mem ((h.map Prod.fst).nodup hd), h.mem_iff]

/-- A member may be put in anywhere if its name is new. -/
theorem nodup_insert_iff :
    ((before ++ (name, v) :: after).map Prod.fst).Nodup ↔
      name ∉ (before ++ after).map Prod.fst ∧ ((before ++ after).map Prod.fst).Nodup := by
  rw [(List.perm_middle.map Prod.fst).nodup_iff, List.map_cons, List.nodup_cons]

theorem lookup_insert_self (hd : ((before ++ (name, v) :: after).map Prod.fst).Nodup) :
    (before ++ (name, v) :: after).lookup name = some v :=
  (lookup_eq_some_iff_mem hd).mpr (by simp)

/-- A member hides none of another name. -/
theorem lookup_insert_of_ne (h : key ≠ name) :
    (before ++ (name, v) :: after).lookup key = (before ++ after).lookup key := by
  have hkey : (key == name) = false := by simpa using h
  rw [List.lookup_append, List.lookup_append, List.lookup_cons, hkey]

end Json

/-! ## Values of parts -/

namespace Setting

/-- The value that a part has if nothing is given for it. -/
def default : Slot → Setting
  | .reboot => .reboot false
  | .conditions f => .conditions f [.any]

/-- Write a value. -/
def toJson : Setting → Json
  | reboot value => .bool value
  | conditions _ list => Condition.listToJson list

/-- The tree spells a value. -/
def Spells (U : String → Json → Prop) (j : Json) : Setting → Prop
  | reboot value => j = .bool value
  | conditions _ list => Condition.SpellsList U j list

variable {a : Setting} {j : Json}

/-- The canonical spelling of a setting is the one with bare names. -/
theorem eq_toJson_iff : j = a.toJson ↔ Spells IsBare j a := by
  cases a with
  | reboot value => exact Iff.rfl
  | conditions f list => exact Condition.eq_listToJson_iff

/-- What is written can be read. -/
theorem spells_toJson (a : Setting) : Spells IsUnit a.toJson a := by
  cases a with
  | reboot value => rfl
  | conditions f list =>
      exact Condition.listOfJson?_eq_some_iff.mp (Condition.listOfJson?_listToJson list)

@[simp] theorem slot_default (p : Slot) : (default p).slot = p := by cases p <;> rfl

end Setting

namespace Schedule

/-- The value of a part of a schedule. -/
def setting (s : Schedule) : Slot → Setting
  | .reboot => .reboot s.reboot
  | .conditions f => .conditions f (s.conditions f)

variable {s : Schedule} {p : Slot} {a : Setting} {given : Slot → Option Json}

@[simp] theorem slot_setting (s : Schedule) (p : Slot) : (s.setting p).slot = p := by
  cases p <;> rfl

/-- A schedule writes its parts as the settings that make them. -/
theorem partToJson_eq (s : Schedule) (p : Slot) : s.partToJson p = (s.setting p).toJson := by
  cases p <;> rfl

/-- Any values make up a schedule. -/
theorem exists_setting {value : Slot → Setting} (h : ∀ p, (value p).slot = p) :
    ∃ s : Schedule, ∀ p, s.setting p = value p := by
  -- a value for a part is of the kind of the part
  have hboot : ∃ b, value .reboot = .reboot b := by
    have hslot := h .reboot
    cases hv : value .reboot with
    | reboot b => exact ⟨b, rfl⟩
    | conditions f l =>
        rw [hv] at hslot
        cases hslot
  have hlist : ∀ f, ∃ l, value (.conditions f) = .conditions f l := by
    intro f
    have hslot := h (.conditions f)
    cases hv : value (.conditions f) with
    | reboot b =>
        rw [hv] at hslot
        cases hslot
    | conditions g l =>
        rw [hv] at hslot
        cases hslot
        exact ⟨l, rfl⟩
  obtain ⟨b, hb⟩ := hboot
  choose conditions hconditions using hlist
  refine ⟨ofConditions b conditions, ?_⟩
  intro p
  cases p with
  | reboot => exact hb.symm
  | conditions f => rw [hconditions, setting, conditions_ofConditions]

/-! ## Reading part by part -/

/-- Read one part of a schedule. -/
def partOfGiven? : Slot → Option Json → Option Setting
  | .reboot, j => (bootOfGiven? j).map .reboot
  | .conditions f, j => (conditionsOfGiven? j).map (.conditions f)

/-- A part that is not given has its default. -/
theorem partOfGiven?_none (p : Slot) : partOfGiven? p none = some (.default p) := by
  cases p <;> rfl

/-- **A given part is read as the value that the tree spells.** -/
theorem partOfGiven?_some_iff {j : Json} :
    partOfGiven? p (some j) = some a ↔ a.slot = p ∧ a.Spells IsUnit j := by
  cases p with
  | reboot =>
      cases a with
      | reboot value =>
          simp [partOfGiven?, bootOfGiven?, Setting.slot, Setting.Spells, Json.bool?_eq_some_iff]
      | conditions f list => simp [partOfGiven?, Setting.slot]
  | conditions f =>
      cases a with
      | reboot value => simp [partOfGiven?, Setting.slot]
      | conditions g list =>
          simp only [partOfGiven?, conditionsOfGiven?, Option.map_eq_some_iff,
            Setting.conditions.injEq, Setting.slot, Slot.conditions.injEq, Setting.Spells,
            ← Condition.listOfJson?_eq_some_iff]
          constructor
          · rintro ⟨l, hl, rfl, rfl⟩
            exact ⟨rfl, hl⟩
          · rintro ⟨rfl, hl⟩
            exact ⟨_, hl, rfl, rfl⟩

/-- **A schedule is read exactly if each of its parts is.** -/
theorem ofGiven?_eq_some_iff_parts :
    ofGiven? given = some s ↔ ∀ p, partOfGiven? p (given p) = some (s.setting p) := by
  rw [ofGiven?_eq_some_iff]
  constructor
  · rintro ⟨hb, hc⟩ p
    cases p with
    | reboot => rw [partOfGiven?, hb]; rfl
    | conditions f => rw [partOfGiven?, hc f]; rfl
  · intro h
    constructor
    · have hb := h .reboot
      simpa [partOfGiven?, setting] using hb
    · intro f
      have hc := h (.conditions f)
      simpa [partOfGiven?, setting] using hc

/-- Given values that are read alike part by part make the same schedule, or none. -/
theorem ofGiven?_congr {given' : Slot → Option Json}
    (h : ∀ p, partOfGiven? p (given p) = partOfGiven? p (given' p)) :
    ofGiven? given = ofGiven? given' := by
  ext s
  rw [ofGiven?_eq_some_iff_parts, ofGiven?_eq_some_iff_parts]
  simp only [h]

/-- There is a schedule to read exactly if there is something to read in each part. -/
theorem exists_ofGiven?_iff :
    (∃ s, ofGiven? given = some s) ↔ ∀ p, ∃ a, partOfGiven? p (given p) = some a := by
  constructor
  · rintro ⟨s, hs⟩ p
    exact ⟨_, ofGiven?_eq_some_iff_parts.mp hs p⟩
  · intro h
    choose value hvalue using h
    have hslot : ∀ p, (value p).slot = p := by
      intro p
      have hp := hvalue p
      cases hg : given p with
      | none =>
          rw [hg, partOfGiven?_none] at hp
          rw [← Option.some.inj hp, Setting.slot_default]
      | some j =>
          rw [hg] at hp
          exact (partOfGiven?_some_iff.mp hp).1
    obtain ⟨s, hs⟩ := exists_setting hslot
    refine ⟨s, ofGiven?_eq_some_iff_parts.mpr ?_⟩
    intro p
    rw [hs, hvalue]

/-! ## What a tree gives -/

/-- In an object parts are given by name. -/
theorem ofJson?_object (members : List (String × Json)) :
    ofJson? (.object members) = ofGiven? fun p => members.lookup p.name := rfl

/-- In an array parts are given by place. -/
theorem ofJson?_array {elements : List Json} (h : elements.length ≤ Slot.all.length) :
    ofJson? (.array elements) = ofGiven? fun p => elements[p.position]? := by
  simp only [ofJson?, givenParts?, if_pos h, Option.bind_eq_bind, Option.bind_some]

theorem getElem?_all_iff {i : Nat} {p : Slot} : Slot.all[i]? = some p ↔ i = p.position := by
  constructor
  · intro h
    obtain ⟨hi, rfl⟩ := List.getElem?_eq_some_iff.mp h
    exact (List.Nodup.idxOf_getElem (by decide) i hi).symm
  · rintro rfl
    exact List.getElem?_idxOf p.mem_all

theorem position_injective {p q : Slot} (h : p.position = q.position) : p = q := by
  have hp : Slot.all[p.position]? = some p := getElem?_all_iff.mpr rfl
  have hq : Slot.all[p.position]? = some q := getElem?_all_iff.mpr h
  exact Option.some.inj (hp.symm.trans hq)

/-- The parts of a written schedule are all there. -/
theorem lookup_parts {value : Slot → Json} (p : Slot) :
    (Slot.all.map fun q => (q.name, value q)).lookup p.name = some (value p) := by
  have hd : ((Slot.all.map fun q => (q.name, value q)).map Prod.fst).Nodup := by
    rw [List.map_map]
    show (Slot.all.map Slot.name).Nodup
    decide
  rw [Json.lookup_eq_some_iff_mem hd, List.mem_map]
  exact ⟨p, p.mem_all, rfl⟩

end Schedule

end Recurrence
