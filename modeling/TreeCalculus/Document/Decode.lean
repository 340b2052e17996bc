import TreeCalculus.Json.Reader
import TreeCalculus.Library
import TreeCalculus.Proof.Basic
import TreeCalculus.Template

/-!
Reading terms, sequents and proofs from JSON values.

Values are read in a fixed order and the first fault is reported. Keys that are not looked at may
hold anything. A list may also be given as an object or as a string, which then count as the list
of their keys or of their characters; so the empty object and the empty string are empty lists.
Where a name or an id is expected any value may stand, and it is taken as it is; only the ids of
nodes have to be values that can be looked up, since an index of them is built.

* `DecodeError`: the faults and their wording.
* `termOf`, `templateOf`, `equationOf`, `sequentOf`, `derivationOf`: the readers of the parts.
* `Proof.ofValue`, `Proof.load`: a whole proof, from a value and from a text.
-/

namespace TreeCalculus.Document

open Json (Value)

/-! ### Faults -/

/-- What can be wrong with a value. -/
inductive DecodeError where
  /-- An object lacks a key. -/
  | missingKey (key : Text)
  /-- Something that is no object is asked for a key. -/
  | notAnObject (kind : Value.Kind)
  /-- Something that is no object stands for a node. -/
  | notANode (kind : Value.Kind)
  /-- Something that has no parts stands for a list. -/
  | notAList (kind : Value.Kind)
  /-- A term has a tag that is not known. -/
  | unknownTerm (tag : Value)
  /-- A rule is not known. -/
  | unknownRule (name : Value)
  /-- The id of a node cannot be looked up. -/
  | unhashable (kind : Value.Kind)

/-- The wording of a fault. -/
def DecodeError.message : DecodeError → Text
  | missingKey key => Text.quoted key
  | notAnObject .arr => "list indices must be integers or slices, not str"
  | notAnObject .str => "string indices must be integers, not 'str'"
  | notAnObject kind => "'" ++ kind.label ++ "' object is not subscriptable"
  | notANode kind => "'" ++ kind.label ++ "' object has no attribute 'get'"
  | notAList kind => "'" ++ kind.label ++ "' object is not iterable"
  | unknownTerm tag => "Unknown term type: " ++ tag.text
  | unknownRule name => name.quotedText ++ " is not a valid RuleType"
  | unhashable kind => unhashableText kind

/-! ### Keys and lists -/

/-- What stands under a key. -/
def field (key : Text) : Value → Except DecodeError Value
  | .obj fields =>
      match fields.lookup key with
      | some v => .ok v
      | none => .error (.missingKey key)
  | v => .error (.notAnObject v.kind)

/-- The parts of a value that stands for a list. -/
def partsOf : Value → Except DecodeError (List Value)
  | .arr items => .ok items
  | .obj fields => .ok (fields.map fun member => .str member.1)
  | .str s => .ok (s.toList.map fun c => .str (.ofList [c]))
  | v => .error (.notAList v.kind)

/-! ### Terms -/

/-- What is found under a key among members whose values were read before. -/
def readField {α : Type} (key : Text) (members : List (Text × Except DecodeError α)) :
    Except DecodeError α :=
  match members.lookup key with
  | some read => read
  | none => .error (.missingKey key)

/-- The kind of term that a tag announces. -/
def kindOf? (tag : Value) : Option Term.Kind := tag.str?.bind Term.Kind.ofTag?

/-- A term, given its tag, its name and its parts where they are needed. -/
def termOfTag (tag : Value) (name : Except DecodeError Value)
    (left right : Except DecodeError (Term Value)) : Except DecodeError (Term Value) :=
  match kindOf? tag with
  | some .leaf => .ok .leaf
  | some .var => name.map .var
  | some .ref => name.map .ref
  | some .app => do
      let left' ← left
      let right' ← right
      return .app left' right'
  | none => .error (.unknownTerm tag)

mutual

/-- Read a term. -/
def termOf : Value → Except DecodeError (Term Value)
  | .obj fields => do
      let tag ← field "type" (.obj fields)
      let parts := termsOf fields
      termOfTag tag (field "name" (.obj fields)) (readField "left" parts) (readField "right" parts)
  | v => .error (.notAnObject v.kind)

/-- Read the values of members as terms. -/
def termsOf : List (Text × Value) → List (Text × Except DecodeError (Term Value))
  | [] => []
  | (key, v) :: rest => (key, termOf v) :: termsOf rest

end

mutual

/-- Read a template: a term that may have holes. -/
def templateOf : Value → Except DecodeError (Template Value)
  | .obj fields => do
      let tag ← field "type" (.obj fields)
      let parts := templatesOf fields
      if tag.str? = some Template.holeTag then return .hole
      else
        match kindOf? tag with
        | some .app => do
            let left ← readField "left" parts
            let right ← readField "right" parts
            return .app left right
        | _ => (termOf (.obj fields)).map .ofTerm
  | v => .error (.notAnObject v.kind)

/-- Read the values of members as templates. -/
def templatesOf : List (Text × Value) → List (Text × Except DecodeError (Template Value))
  | [] => []
  | (key, v) :: rest => (key, templateOf v) :: templatesOf rest

end

/-- Read an equation. -/
def equationOf (v : Value) : Except DecodeError (Equation Value) := do
  let lhs ← field "lhs" v >>= termOf
  let rhs ← field "rhs" v >>= termOf
  return ⟨lhs, rhs⟩

/-- Read a list of equations. -/
def equationsOf (v : Value) : Except DecodeError (List (Equation Value)) := do
  let parts ← partsOf v
  parts.mapM equationOf

/-- Read a sequent. -/
def sequentOf (v : Value) : Except DecodeError (Sequent Value) := do
  let id ← field "id" v
  let hypotheses ← field "hypotheses" v >>= equationsOf
  let goal ← field "goal" v >>= equationOf
  return { id, hypotheses, goal }

/-! ### Proofs -/

/-- Read the rule of a node; a missing one and `null` leave the node open. -/
def ruleOf : Option Value → Except DecodeError (Option Rule)
  | none => .ok none
  | some .null => .ok none
  | some (.str name) =>
      match Rule.ofName? name with
      | some rule => .ok (some rule)
      | none => .error (.unknownRule (.str name))
  | some v => .error (.unknownRule v)

/-- The name under a key that may be missing; `null` is no name. -/
def optionalName (key : Text) (fields : List (Text × Value)) : Option Value :=
  (fields.lookup key).bind Naming.present

mutual

/-- Read a node with everything below it. -/
def derivationOf : Value → Except DecodeError (Derivation Value)
  | .obj fields => do
      let id ← field "id" (.obj fields)
      let sequent ← field "sequent" (.obj fields) >>= sequentOf
      let rule ← ruleOf (fields.lookup (Text.ofString "rule"))
      let children ← ((forestsOf fields).lookup (Text.ofString "children")).getD (.ok [])
      let parent := optionalName "parentId" fields
      let backLink := optionalName "backLinkTo" fields
      return .node { id, sequent, rule, parent, backLink } children
  | v => .error (.notANode v.kind)

/-- Read the values of members as lists of nodes. -/
def forestsOf :
    List (Text × Value) → List (Text × Except DecodeError (List (Derivation Value)))
  | [] => []
  | (key, v) :: rest => (key, forestOf v) :: forestsOf rest

/-- Read a value as a list of nodes. The parts of an object or a string are strings, and so are no
nodes. -/
def forestOf : Value → Except DecodeError (List (Derivation Value))
  | .arr items => derivationsOf items
  | v => do
      match ← partsOf v with
      | [] => return []
      | part :: _ => .error (.notANode part.kind)

/-- Read nodes one after the other. -/
def derivationsOf : List Value → Except DecodeError (List (Derivation Value))
  | [] => .ok []
  | v :: rest => do
      let first ← derivationOf v
      let others ← derivationsOf rest
      return first :: others

end

/-- Why a text is not read as a proof. -/
inductive LoadError where
  | text (e : Json.ReadError)
  | value (e : DecodeError)

/-- The wording of a failed loading. -/
def LoadError.message : LoadError → Text
  | text e => e.message
  | value e => e.message

end TreeCalculus.Document

namespace TreeCalculus.Proof

open Document
open Json (Value)

/-- The proof of a tree that was read, if all ids can be looked up. -/
def adopt (tree : Derivation Value) : Except DecodeError (Proof Value) :=
  match Naming.firstUnhashable? (tree.nodes.map Node.id) with
  | some kind => .error (.unhashable kind)
  | none => .ok (ofTree tree)

/-- The proof in a value of the form of a saved proof. -/
def ofValue (v : Value) : Except DecodeError (Proof Value) := do
  let root ← field "root" v
  let tree ← derivationOf root
  adopt tree

/-- The proof in the text of a saved proof. -/
def load (text : Text) : Except LoadError (Proof Value) :=
  match Json.parse text with
  | .error e => .error (.text e)
  | .ok v => (ofValue v).mapError .value

end TreeCalculus.Proof
