import TreeCalculus.Number.Layout
import TreeCalculus.Text.Quoted

/-!
JSON values, their equality, and their form in messages.

The members of an object keep their order, and no key occurs twice in what the reader returns.

* `Value`, `Value.Kind`: the values and what they are.
* `Value.alike`, `Value.same`: two notions of equality. Both take a truth value for the number zero
  or one, compare numbers by what they denote, and objects without regard to the order of members.
  They differ on what is no number, which is alike with itself but not the same.
* `Value.text`, `Value.quotedText`: a value in a message; the two differ on strings only, which are
  plain in the first form and quoted in the second. Inside lists and objects strings are quoted.
-/

namespace TreeCalculus.Json

/-- JSON values. -/
inductive Value where
  | null
  | bool (b : Bool)
  | int (n : Int)
  /-- A number that is not written as an integer. -/
  | real (x : Number.Double)
  | str (s : Text)
  | arr (items : List Value)
  | obj (fields : List (Text × Value))
  deriving Inhabited

namespace Value

/-- What a value is. -/
inductive Kind where
  | null
  | bool
  | int
  | real
  | str
  | arr
  | obj
  deriving DecidableEq

/-- The kind of a value. -/
def kind : Value → Kind
  | null => .null
  | bool _ => .bool
  | int _ => .int
  | real _ => .real
  | str _ => .str
  | arr _ => .arr
  | obj _ => .obj

/-- The text of a string. -/
def str? : Value → Option Text
  | str s => some s
  | _ => none

/-- The name of a kind in messages. -/
def Kind.label : Kind → Text
  | null => "NoneType"
  | bool => "bool"
  | int => "int"
  | real => "float"
  | str => "str"
  | arr => "list"
  | obj => "dict"

/-! ### Equality -/

/-- What counts of a value that is neither a list nor an object. -/
inductive Key where
  | null
  | int (n : Int)
  /-- A number that equals no integer. -/
  | real (x : Number.Double)
  | str (s : Text)
  deriving DecidableEq

/-- What counts of a value; lists and objects are compared part by part. -/
def key? : Value → Option Key
  | null => some .null
  | bool b => some (.int (if b then 1 else 0))
  | int n => some (.int n)
  | real x => some ((x.toInt?.map .int).getD (.real x))
  | str s => some (.str s)
  | arr _ => none
  | obj _ => none

/-- Lists and objects cannot be looked up in a table. -/
def isHashable (v : Value) : Bool := v.key?.isSome

mutual

/-- Whether two values are alike. -/
def alike : Value → Value → Bool
  | arr items, w =>
      match w with
      | arr items' => itemsAlike items items'
      | _ => false
  | obj fields, w =>
      match w with
      | obj fields' => fields.length == fields'.length && fieldsAlike fields fields'
      | _ => false
  | v, w => v.key? == w.key?

/-- Whether the items of two lists are alike. -/
def itemsAlike : List Value → List Value → Bool
  | [], [] => true
  | v :: rest, w :: rest' => alike v w && itemsAlike rest rest'
  | _, _ => false

/-- Whether the members of an object are alike with those under the same keys in another. -/
def fieldsAlike : List (Text × Value) → List (Text × Value) → Bool
  | [], _ => true
  | (key, v) :: rest, fields =>
      (match fields.lookup key with
        | some w => alike v w
        | none => false) && fieldsAlike rest fields

end

/-- Values are looked up in tables by likeness. -/
instance : BEq Value := ⟨alike⟩

/-- Whether two values are the same. -/
def same : Value → Value → Bool
  | real .nan, real .nan => false
  | v, w => v == w

/-- Whether a value is other than nothing, zero and the empty text, list and object. -/
def isFilled : Value → Bool
  | null => false
  | bool b => b
  | int n => n != 0
  | real x => x.toInt? != some 0
  | str s => !s.isEmpty
  | arr items => !items.isEmpty
  | obj fields => !fields.isEmpty

/-! ### Messages -/

mutual

/-- A value in a message, with strings quoted. -/
def quotedText : Value → Text
  | null => "None"
  | bool true => "True"
  | bool false => "False"
  | int n => toString n
  | real x => x.toText
  | str s => Text.quoted s
  | arr items => "[" ++ Text.intercalate ", " (quotedItems items) ++ "]"
  | obj fields => "\x7b" ++ Text.intercalate ", " (quotedFields fields) ++ "\x7d"

/-- The items of a list in a message. -/
def quotedItems : List Value → List Text
  | [] => []
  | v :: rest => quotedText v :: quotedItems rest

/-- The members of an object in a message. -/
def quotedFields : List (Text × Value) → List Text
  | [] => []
  | (key, v) :: rest => (Text.quoted key ++ ": " ++ quotedText v) :: quotedFields rest

end

/-- A value in a message, a string as it stands. -/
def text : Value → Text
  | str s => s
  | v => v.quotedText

end Value

end TreeCalculus.Json
