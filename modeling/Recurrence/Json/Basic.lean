/-
# JSON values

The values of the JSON data format, as far as schedules are written in it.  A number keeps
whether it was written as an integer: `5` is one, `5.0` is not.  An object is the list of its
members in writing order.

A variant is written as an object with one member, the variant's name and its payload, or, if
the payload is null, as the bare name (`Json.variant?`).
-/

namespace Recurrence

/-- A JSON value. -/
inductive Json where
  | null
  | bool (value : Bool)
  /-- A number without fraction and exponent. -/
  | integer (value : Int)
  /-- Any other number: the mantissa divided by ten to the power of the scale. -/
  | decimal (mantissa : Int) (scale : Nat)
  | string (value : String)
  | array (elements : List Json)
  | object (members : List (String × Json))
  deriving Repr, Inhabited

namespace Json

/-! ## Reading -/

/-- The truth value of `true` and `false`. -/
def bool? : Json → Option Bool
  | bool value => some value
  | _ => none

/-- The value of an integer that fits a signed 32-bit word. -/
def int32? : Json → Option Int32
  | integer n => if (Int32.ofInt n).toInt = n then some (.ofInt n) else none
  | _ => none

/-- The value of an integer that fits an unsigned 32-bit word. -/
def uint32? : Json → Option UInt32
  | integer n => if (UInt32.ofNat n.toNat).toNat = n then some (.ofNat n.toNat) else none
  | _ => none

/-- Name and payload of a variant. -/
def variant? : Json → Option (String × Json)
  | string name => some (name, null)
  | object [(name, payload)] => some (name, payload)
  | _ => none

/-! ## Writing -/

/-- A signed word as a number. -/
def ofInt32 (v : Int32) : Json := integer v.toInt

/-- An unsigned word as a number. -/
def ofUInt32 (v : UInt32) : Json := integer v.toNat

/-- A variant with a payload. -/
def ofVariant (name : String) (payload : Json) : Json := object [(name, payload)]

/-! ## Basic lemmas -/

theorem bool?_eq_some_iff {j : Json} {b : Bool} : j.bool? = some b ↔ j = bool b := by
  cases j <;> simp [bool?]

/-- Every signed word has one spelling. -/
theorem int32?_eq_some_iff {j : Json} {v : Int32} : j.int32? = some v ↔ j = ofInt32 v := by
  cases j with
  | integer n =>
    simp only [int32?, ofInt32, integer.injEq]
    constructor
    · intro h
      split at h
      · next hn => rw [← Option.some.inj h, hn]
      · simp at h
    · rintro rfl
      simp
  | _ => simp [int32?, ofInt32]

/-- Every unsigned word has one spelling. -/
theorem uint32?_eq_some_iff {j : Json} {v : UInt32} : j.uint32? = some v ↔ j = ofUInt32 v := by
  cases j with
  | integer n =>
    simp only [uint32?, ofUInt32, integer.injEq]
    constructor
    · intro h
      split at h
      · next hn => rw [← Option.some.inj h, hn]
      · simp at h
    · rintro rfl
      simp
  | _ => simp [uint32?, ofUInt32]

/-- Every signed word is read back from its number. -/
@[simp] theorem int32?_toInt (v : Int32) : (integer v.toInt).int32? = some v :=
  int32?_eq_some_iff.mpr rfl

@[simp] theorem uint32?_toNat (v : UInt32) : (integer v.toNat).uint32? = some v :=
  uint32?_eq_some_iff.mpr rfl

end Json

end Recurrence
