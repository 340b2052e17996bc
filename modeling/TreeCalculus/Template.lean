import TreeCalculus.Path

/-!
Templates: terms with holes.

A template is built by filling holes, and becomes a term when none is left.

* `Template.firstHole?`: the path to the leftmost hole.
* `Template.fill`: put a template into the hole at a path.
* `Template.convert`: the term of a template without holes; a hole is never met.
* `Template.toTerm`, `Template.ofTerm`: between templates without holes and terms.
-/

namespace TreeCalculus

/-- Terms with holes. -/
inductive Template (ν : Type := Text) where
  /-- A part that is not chosen yet. -/
  | hole
  | leaf
  | var (name : ν)
  | ref (name : ν)
  | app (left right : Template ν)
  deriving DecidableEq, Inhabited

namespace Template

variable {ν : Type}

/-- The tag of a hole in saved templates. -/
def holeTag : Text := "Hole"

/-- An application with both parts open. -/
def emptyApp : Template ν := app hole hole

/-- The path to the leftmost hole. -/
def firstHole? : Template ν → Option Path
  | hole => some []
  | leaf => none
  | var _ => none
  | ref _ => none
  | app left right =>
      match left.firstHole? with
      | some path => some (.left :: path)
      | none =>
          match right.firstHole? with
          | some path => some (.right :: path)
          | none => none

/-- Why a hole cannot be filled. -/
inductive FillError where
  /-- The path leads to something that is no hole. -/
  | noHole
  /-- A part is no application although the turns `remaining` are left. -/
  | notApplication (remaining : Path)

/-- The wording of a failed filling; a path that ended shows as the empty path. -/
def FillError.message : FillError → Text
  | noHole => "No hole at " ++ Path.toText []
  | notApplication remaining => "Expected application before " ++ remaining.toText

/-- Put `new` into the hole at a path. -/
def fill :
    (t : Template ν) → (path : Path) → (new : Template ν) → Except FillError (Template ν)
  | hole, [], new => .ok new
  | _, [], _ => .error .noHole
  | app left right, .left :: rest, new =>
      (left.fill rest new).map fun left' => app left' right
  | app left right, .right :: rest, new =>
      (right.fill rest new).map fun right' => app left right'
  | _, turn :: rest, _ => .error (.notApplication (turn :: rest))

/-- A hole is left in a template that was taken for complete. -/
structure Incomplete where
  /-- Where the leftmost hole is. -/
  hole : Path

/-- The wording of an incomplete construction. -/
def Incomplete.message (e : Incomplete) : Text := "Hole left at " ++ e.hole.toText

/-- An application has no hole iff its parts have none. -/
theorem firstHole?_app_eq_none {left right : Template ν} :
    (app left right).firstHole? = none ↔ left.firstHole? = none ∧ right.firstHole? = none := by
  rw [firstHole?]
  cases left.firstHole? <;> cases right.firstHole? <;> simp

/-- The term of a template without holes. -/
def convert : (t : Template ν) → t.firstHole? = none → Term ν
  | leaf, _ => .leaf
  | var name, _ => .var name
  | ref name, _ => .ref name
  | app left right, h =>
      .app (left.convert (firstHole?_app_eq_none.1 h).1)
        (right.convert (firstHole?_app_eq_none.1 h).2)

/-- The term of a template without holes, or else the place of its leftmost hole. -/
def toTerm (t : Template ν) : Except Incomplete (Term ν) :=
  match h : t.firstHole? with
  | some path => .error ⟨path⟩
  | none => .ok (t.convert h)

/-- A term as a template without holes. -/
def ofTerm : Term ν → Template ν
  | .leaf => leaf
  | .var name => var name
  | .ref name => ref name
  | .app left right => app (ofTerm left) (ofTerm right)

end Template

end TreeCalculus
