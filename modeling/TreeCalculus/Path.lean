import TreeCalculus.Term
import TreeCalculus.Text.Quoted
import TreeCalculus.Text.Split

/-!
Paths into terms.

A path is the list of turns taken at the applications on the way down from the root. Its text is
`root` followed by `.L` or `.R` for every turn.

* `Path.toText`, `Path.parse`: the text of a path, and its reader, which accepts nothing else.
* `Term.subterm`, `Term.replace`: the subterm at a path, and the term with that subterm replaced.
  Both fail when the path takes a turn at a term that is no application; the first reports the
  place, the second the turns that were left.
-/

namespace TreeCalculus

/-- One step down from an application. -/
inductive Turn where
  /-- To the operator. -/
  | left
  /-- To the argument. -/
  | right
  deriving DecidableEq

/-- The turns taken on the way down from the root. -/
abbrev Path := List Turn

namespace Turn

/-- The letter of a turn. -/
def letter : Turn → Char
  | left => 'L'
  | right => 'R'

/-- The turn that a segment of a path spells. -/
def ofSegment? (segment : List CodePoint) : Option Turn :=
  if segment = [.char 'L'] then some left
  else if segment = [.char 'R'] then some right
  else none

end Turn

/-- What can be wrong with the text of a path. -/
inductive PathSyntaxError where
  /-- The first segment is not `root`. -/
  | notRooted (text : Text)
  /-- A later segment is no turn. -/
  | badSegment (text : Text)

/-- The wording of a fault in the text of a path. -/
def PathSyntaxError.message : PathSyntaxError → Text
  | notRooted text => "Path must start with 'root': " ++ Text.quoted text
  | badSegment text => "Invalid path segment in " ++ Text.quoted text

namespace Path

/-- The first segment of every path. -/
def rootSegment : List CodePoint := ['r', 'o', 'o', 't']

/-- The text of a path. -/
def toText (p : Path) : Text :=
  .ofList (rootSegment ++ p.flatMap fun turn => [.char '.', .char turn.letter])

/-- Read the text of a path. -/
def parse (text : Text) : Except PathSyntaxError Path :=
  match Text.splitPoints '.' text.toList with
  | [] => .error (.notRooted text)
  | first :: segments =>
      if first = rootSegment then
        match segments.mapM Turn.ofSegment? with
        | some turns => .ok turns
        | none => .error (.badSegment text)
      else .error (.notRooted text)

end Path

/-- A path takes a turn at a term that is no application. -/
inductive PathMismatch where
  /-- The term reached by `walked` is no application. -/
  | stuckAt (walked : Path) (found : Term.Kind)
  /-- A term is no application although the turns `remaining` are left. -/
  | stuckBefore (remaining : Path) (found : Term.Kind)

/-- The wording of a mismatch. -/
def PathMismatch.message : PathMismatch → Text
  | stuckAt walked found => "Expected App at " ++ walked.toText ++ ", found " ++ found.label
  | stuckBefore remaining found =>
      "Expected App before " ++ remaining.toText ++ ", found " ++ found.label

namespace Term

variable {ν : Type}

/-- Follow a path down from a term that was itself reached by `walked`. -/
def subtermFrom (walked : Path) : Term ν → Path → Except PathMismatch (Term ν)
  | t, [] => .ok t
  | app left _, .left :: rest => left.subtermFrom (walked ++ [.left]) rest
  | app _ right, .right :: rest => right.subtermFrom (walked ++ [.right]) rest
  | t, _ :: _ => .error (.stuckAt walked t.kind)

/-- The subterm at a path. -/
def subterm (t : Term ν) (path : Path) : Except PathMismatch (Term ν) := t.subtermFrom [] path

/-- The term with the subterm at a path replaced by `new`. -/
def replace : (t : Term ν) → (path : Path) → (new : Term ν) → Except PathMismatch (Term ν)
  | _, [], new => .ok new
  | app left right, .left :: rest, new =>
      (left.replace rest new).map fun left' => app left' right
  | app left right, .right :: rest, new =>
      (right.replace rest new).map fun right' => app left right'
  | t, turn :: rest, _ => .error (.stuckBefore (turn :: rest) t.kind)

end Term

end TreeCalculus
