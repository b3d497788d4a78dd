/-
# The class of all spellings

The changes of spelling are enough: an object that is read as a schedule can be turned into the
written schedule by such changes.  First each part is written in front of what is left of the
object, taken from there or put in as its default; what is left then belongs to no part.

* `Setting.Spells.respells` : a spelling of a value is respelled as the written value;
* `Schedule.sameUpToSpelling_toJson` : an object that is read as a schedule is a spelling of what
  the writer gives for it;
* `Schedule.writing_represents_spellings` : what is written is read back, and stands for all its
  spellings.
-/
import Recurrence.Proofs.Json.Respelling

namespace Recurrence

open Json (IsUnit Respelled)
open Relation (ReflTransGen)

/-! ## From a spelling of a value to the written value -/

/-- Every spelling of a name can be respelled to the bare name. -/
theorem Json.IsUnit.respells {name : String} {j : Json} (h : IsUnit name j) :
    ReflTransGen Respelled j (.string name) := by
  rcases h with rfl | rfl
  · exact .refl
  · exact .single (.bare name)

/-- What is respelled inside may be respelled under a name. -/
theorem Json.respells_data {p p' : Json} (name : String) (h : ReflTransGen Respelled p p') :
    ReflTransGen Respelled (.object [(name, p)]) (.object [(name, p')]) :=
  h.lift (fun p => Json.object [(name, p)]) fun _ _ h => .member [] [] name h

theorem StepBase.Spells.respells {j : Json} {base : StepBase} (h : Spells IsUnit j base) :
    ReflTransGen Respelled j base.toJson := by
  cases h with
  | any h => exact h.respells
  | range => exact .refl

theorem DayAnchor.Spells.respells {j : Json} {anchor : DayAnchor} (h : Spells IsUnit j anchor) :
    ReflTransGen Respelled j anchor.toJson := by
  cases h with
  | day => exact .refl
  | lastDay h => exact h.respells

/-- Every spelling of a condition can be respelled to the canonical one. -/
theorem Condition.Spells.respells {j : Json} {c : Condition} (h : Spells IsUnit j c) :
    ReflTransGen Respelled j c.toJson := by
  cases h with
  | any h => exact h.respells
  | lastDay h => exact h.respells
  | step h divisor =>
      refine Json.respells_data "Step" (h.respells.lift (fun b => Json.array [b, _]) ?_)
      exact fun _ _ h => .element [] _ h
  | nearestWorkday h => exact Json.respells_data _ h.respells
  | number | range | lastWeekday | nthWeekday => exact .refl

/-- The elements of an array are respelled one after the other. -/
theorem Json.respells_array {elements elements' : List Json}
    (h : List.Forall₂ (ReflTransGen Respelled) elements elements') (before : List Json) :
    ReflTransGen Respelled (.array (before ++ elements)) (.array (before ++ elements')) := by
  induction h generalizing before with
  | nil => exact .refl
  | @cons e e' rest rest' he _ ih =>
      have hfirst : ReflTransGen Respelled (.array (before ++ e :: rest))
          (.array (before ++ e' :: rest)) :=
        he.lift (fun e => Json.array (before ++ e :: rest)) fun _ _ h => .element before rest h
      have hrest := ih (before ++ [e'])
      rw [List.append_assoc, List.append_assoc] at hrest
      exact hfirst.trans hrest

/-- **A spelling of a value is respelled as the written value.** -/
theorem Setting.Spells.respells {j : Json} {a : Setting} (h : a.Spells IsUnit j) :
    ReflTransGen Respelled j a.toJson := by
  cases a with
  | reboot value =>
      rw [show j = .bool value from h]
      exact .refl
  | conditions f list =>
      obtain ⟨elements, rfl, hl⟩ := h
      refine Json.respells_array (List.forall₂_map_right_iff.mpr (hl.imp ?_)) []
      exact fun _ _ h => h.respells

/-! ## From an object to the written schedule -/

namespace Schedule

variable {s : Schedule} {members : List (String × Json)}

theorem SameUpToSpelling.of_respells (before after : List (String × Json)) (name : String)
    {v v' : Json} (h : ReflTransGen Respelled v v') :
    SameUpToSpelling (.object (before ++ (name, v) :: after))
      (.object (before ++ (name, v') :: after)) := by
  induction h with
  | refl => exact .refl _
  | tail _ h ih => exact ih.trans _ _ _ (.rel _ _ (.member before after name h))

/-- A part of a schedule as the writer gives it. -/
def written (s : Schedule) (p : Slot) : String × Json := (p.name, (s.setting p).toJson)

/-- One more part is written in front: if it is missing, its default is put in; else it is brought
there and respelled. -/
theorem exists_written_cons {p : Slot} {front rest : List (String × Json)}
    (hd : ((front ++ rest).map Prod.fst).Nodup) (hp : p.name ∉ front.map Prod.fst)
    (hread : partOfGiven? p ((front ++ rest).lookup p.name) = some (s.setting p)) :
    ∃ rest', SameUpToSpelling (.object (front ++ rest))
      (.object (s.written p :: (front ++ rest'))) := by
  cases hv : (front ++ rest).lookup p.name with
  | none =>
      rw [hv, partOfGiven?_none, Option.some.injEq] at hread
      have hdefault : (Setting.default p).Spells IsUnit (s.setting p).toJson := by
        rw [← hread]
        exact Setting.spells_toJson _
      have hnew := Json.lookup_eq_none_iff.mp hv
      exact ⟨rest, .symm _ _ (.rel _ _ (.dropped [] _ p _ hdefault hnew))⟩
  | some v =>
      rw [hv, partOfGiven?_some_iff] at hread
      have hrest : (p.name, v) ∈ rest := by
        rcases List.mem_append.mp ((Json.lookup_eq_some_iff_mem hd).mp hv) with hfront | hrest
        · exact absurd (List.mem_map_of_mem hfront) hp
        · exact hrest
      obtain ⟨before, after, rfl⟩ := List.append_of_mem hrest
      have hperm : (front ++ (before ++ (p.name, v) :: after)).Perm
          ((p.name, v) :: (front ++ (before ++ after))) := by
        rw [← List.append_assoc, ← List.append_assoc]
        exact List.perm_middle
      exact ⟨before ++ after, .trans _ _ _ (.rel _ _ (.reorder hperm))
        (SameUpToSpelling.of_respells [] _ p.name hread.2.respells)⟩

/-- Any of the parts are written in front. -/
theorem exists_written_append {parts : List Slot} (hparts : parts.Nodup)
    (hd : (members.map Prod.fst).Nodup) (hs : ofJson? (.object members) = some s) :
    ∃ rest, SameUpToSpelling (.object members) (.object (parts.map s.written ++ rest)) := by
  induction parts with
  | nil => exact ⟨members, .refl _⟩
  | cons p parts ih =>
      obtain ⟨hp, hparts⟩ := List.nodup_cons.mp hparts
      obtain ⟨rest, h⟩ := ih hparts
      -- the schedule that is read is still the same, and so is each of its parts
      have hs' := (h.ofJson?_eq hd).trans hs
      rw [ofJson?_object, ofGiven?_eq_some_iff_parts] at hs'
      have hname : p.name ∉ (parts.map s.written).map Prod.fst := by
        rw [List.map_map, List.mem_map]
        rintro ⟨q, hq, hqp⟩
        exact hp (Slot.name_injective hqp ▸ hq)
      obtain ⟨rest', h'⟩ := exists_written_cons (h.distinctNames_iff.mp hd) hname (hs' p)
      exact ⟨rest', h.trans _ _ _ h'⟩

/-- Once all parts are written, what is left belongs to none and is left out. -/
theorem SameUpToSpelling.of_foreign {rest : List (String × Json)}
    (hd : ((members ++ rest).map Prod.fst).Nodup)
    (hall : ∀ p : Slot, p.name ∈ members.map Prod.fst) :
    SameUpToSpelling (.object (members ++ rest)) (.object members) := by
  induction rest with
  | nil =>
      rw [List.append_nil]
      exact .refl _
  | cons member rest ih =>
      obtain ⟨name, v⟩ := member
      obtain ⟨hnew, hd⟩ := Json.nodup_insert_iff.mp hd
      have hforeign : ∀ p, (name, p) ∉ Json.keys := by
        intro p hp
        rw [List.map_append, List.mem_append, not_or] at hnew
        exact hnew.1 (Json.mem_keys.mp hp ▸ hall p)
      exact .trans _ _ _ (.symm _ _ (.rel _ _ (.foreign members rest name v hforeign hnew))) (ih hd)

/-- **An object that is read as a schedule is a spelling of the written schedule.** -/
theorem sameUpToSpelling_toJson (hd : (members.map Prod.fst).Nodup)
    (hs : ofJson? (.object members) = some s) : SameUpToSpelling (.object members) s.toJson := by
  have hnodup : Slot.all.Nodup := by decide
  obtain ⟨rest, h⟩ := exists_written_append hnodup hd hs
  refine h.trans _ _ _ (SameUpToSpelling.of_foreign (h.distinctNames_iff.mp hd) ?_)
  intro p
  rw [List.map_map]
  exact List.mem_map_of_mem (f := Prod.fst ∘ s.written) p.mem_all

/-- **What is written stands for all its spellings.**  A written schedule is read back.  If a tree
is read as a schedule, then the writer gives a tree in canonical form that is read and written
again the same way, every other spelling of the tree is read as the same schedule, and an object
is a spelling of what the writer gives. -/
theorem writing_represents_spellings :
    (∀ s : Schedule, ofJson? s.toJson = some s) ∧
      ∀ (j : Json) (s : Schedule), j.DistinctNames → ofJson? j = some s →
        IsCanonical s.toJson ∧ ofJson? s.toJson = some s ∧
          (∀ s', ofJson? s.toJson = some s' → s'.toJson = s.toJson) ∧
          (∀ j', SameUpToSpelling j j' → ofJson? j' = some s) ∧
          ∀ members, j = .object members → SameUpToSpelling j s.toJson := by
  refine ⟨ofJson?_toJson, ?_⟩
  intro j s hj hs
  refine ⟨isCanonical_iff.mpr ⟨s, rfl⟩, ofJson?_toJson s, ?_, ?_, ?_⟩
  · intro s' hs'
    rw [ofJson?_toJson] at hs'
    rw [Option.some.inj hs']
  · intro j' h
    rw [h.ofJson?_eq hj, hs]
  · rintro members rfl
    exact sameUpToSpelling_toJson hj hs

/-- A default, a foreign member and a wrapped name less. -/
theorem writing_represents_spellings_month_end :
    let j := Json.object [("reboot", .bool false), ("note", .integer 1),
      ("day", .array [.object [("LastDayOfMonth", .null)]])]
    let j' := Json.object [("day", .array [.string "LastDayOfMonth"])]
    j.DistinctNames ∧ ofJson? j = some { day := [.lastDay] } ∧ SameUpToSpelling j j' ∧
      ofJson? j' = some { day := [.lastDay] } := by
  intro j j'
  have hj : j.DistinctNames := by simp [j, Json.DistinctNames]
  have hs : ofJson? j = some { day := [.lastDay] } := by rfl
  have h : SameUpToSpelling j j' := by
    refine .trans _ _ _ (.rel _ _ (.dropped [] _ .reboot _ rfl (by simp [Slot.name]))) ?_
    refine .trans _ _ _ (.symm _ _ (.rel _ _ (.foreign [] _ "note" _ ?_ (by simp)))) ?_
    · simp [Json.keys]
    · exact .rel _ _ (.member [] [] "day" (.element [] [] (.bare _)))
  exact ⟨hj, hs, h, (writing_represents_spellings.2 j _ hj hs).2.2.2.1 j' h⟩

end Schedule

end Recurrence
