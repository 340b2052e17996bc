import TreeCalculus.Json.Value

/-!
Names.

Variables, definitions, sequents and nodes have texts for names. A saved term or proof may hold any
value in the place of a name, and nothing is checked when it is read; so everything that handles
names is written for names of any type that has the operations below, and is used for texts and for
values. Names are looked up by `==`, under which the numbers `1` and `1.0` and the value `true` are
the same name, and so is whatever is no number with itself.

* `Naming`: the operations on names.
* `Term.equals` and the comparison of links use `Naming.same`; look-ups use `==`.
-/

namespace TreeCalculus

open Json (Value)

/-- What is done with names, besides looking them up. -/
class Naming (ν : Type) where
  /-- Whether two names are the same where they are compared without a look-up. -/
  same : ν → ν → Bool
  /-- The name that is a text. -/
  ofText : Text → ν
  /-- The texts among several names. -/
  texts : List ν → List Text
  /-- Lists and objects cannot be looked up; the kind of such a name. -/
  unhashable? : ν → Option Value.Kind
  /-- A name as an optional one: `null` is no name. -/
  present : ν → Option ν
  /-- Whether a name is more than a blank, such as an empty text. -/
  isFilled : ν → Bool
  /-- A name as it stands in a longer text. -/
  toText : ν → Text
  /-- A name in a message. -/
  quoted : ν → Text
  /-- A name in a saved document. -/
  toValue : ν → Value

namespace Naming

/-- Texts as names. -/
@[default_instance]
instance : Naming Text where
  same a b := a == b
  ofText t := t
  texts names := names
  unhashable? _ := none
  present := some
  isFilled t := !t.isEmpty
  toText t := t
  quoted := Text.quoted
  toValue := .str

/-- Values as names. -/
instance : Naming Value where
  same := Value.same
  ofText := .str
  texts names := names.filterMap Value.str?
  unhashable? v := if v.isHashable then none else some v.kind
  present
    | .null => none
    | v => some v
  isFilled := Value.isFilled
  toText := Value.text
  quoted := Value.quotedText
  toValue v := v

/-- The kind of the first among several names that cannot be looked up. -/
def firstUnhashable? {ν : Type} [Naming ν] (names : List ν) : Option Value.Kind :=
  names.findSome? unhashable?

/-! ### Texts -/

section Text

variable (a b t : Text) (names : List Text)

@[simp] theorem same_text : same a b = (a == b) := rfl

@[simp] theorem ofText_text : (ofText t : Text) = t := rfl

@[simp] theorem unhashable?_text : unhashable? t = none := rfl

@[simp] theorem present_text : present t = some t := rfl

@[simp] theorem toText_text : toText t = t := rfl

@[simp] theorem toValue_text : toValue t = Value.str t := rfl

/-- Every text can be looked up. -/
@[simp] theorem firstUnhashable?_text : firstUnhashable? names = none := by
  simp [firstUnhashable?]

end Text

end Naming

end TreeCalculus
