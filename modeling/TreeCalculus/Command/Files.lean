import TreeCalculus.Text.Quoted
import TreeCalculus.Text.Split

/-!
File names, and reading files without touching a disk.

* `PathName`: a name in its normal form, in which superfluous slashes and parts that stay in place
  are dropped.
* `FileError`: why a file cannot be read, and the wording.
* `FileView`: what reading every name gives. Commands work on a view, whatever is behind it.
* `FileTree`, `FileTree.view`: a directory with files in it, and the view it provides to a program
  that runs in it.
-/

namespace TreeCalculus.Command

/-! ### Names -/

/-- A file name in normal form. -/
structure PathName where
  /-- How many slashes stand in front: none, one, or exactly two. -/
  leading : Nat
  parts : List Text
  deriving DecidableEq

namespace PathName

/-- The normal form of a name. Exactly two slashes in front are kept; more count as one. -/
def ofText (text : Text) : PathName :=
  let slashes := (text.toList.takeWhile (· == .char '/')).length
  let parts := Text.splitAt '/' text
  { leading := if slashes ≤ 2 then slashes else 1
    parts := parts.filter fun part => part != "" && part != "." }

/-- The text of a name; the empty name is that of the directory where the program runs. -/
def toText (name : PathName) : Text :=
  if name.leading = 0 ∧ name.parts = [] then "."
  else Text.replicate name.leading '/' ++ Text.intercalate "/" name.parts

end PathName

/-- Why a file cannot be read. -/
inductive FileError where
  | notFound
  | notADirectory
  | isADirectory
  | nameTooLong
  /-- Any other reason of the system, by number and description. -/
  | other (code : Nat) (description : Text)
  deriving DecidableEq

namespace FileError

/-- The number of a reason. -/
def code : FileError → Nat
  | notFound => 2
  | notADirectory => 20
  | isADirectory => 21
  | nameTooLong => 36
  | other code _ => code

/-- The description of a reason. -/
def description : FileError → Text
  | notFound => "No such file or directory"
  | notADirectory => "Not a directory"
  | isADirectory => "Is a directory"
  | nameTooLong => "File name too long"
  | other _ description => description

/-- The wording of a failure to read a file. -/
def message (e : FileError) (name : PathName) : Text :=
  "[Errno " ++ toString e.code ++ "] " ++ e.description ++ ": " ++ Text.quoted name.toText

end FileError

/-- What reading a file gives, for every name. -/
abbrev FileView := PathName → Except FileError (List UInt8)

/-! ### File trees -/

/-- A directory with the files in it, by the parts of their names. -/
structure FileTree where
  files : List (List Text × List UInt8) := []
  directories : List (List Text) := []

namespace FileTree

/-- The directories of a tree: those given, and those above anything given. -/
def isDirectory (tree : FileTree) (parts : List Text) : Bool :=
  parts.isEmpty || tree.directories.any (parts.isPrefixOf ·) ||
    tree.files.any fun file => parts.isPrefixOf file.1 && parts.length < file.1.length

/-- The number of bytes of a text in a file name. Half of a pair stands for a byte that is no
part of a character. -/
def byteCount (t : Text) : Nat :=
  t.toList.foldl (fun
    | count, .char c => count + c.utf8Size
    | count, .half _ => count + 1) 0

/-- The greatest length of a part of a name, in bytes. -/
def partLimit : Nat := 255

/-- The length that the text of a name has to stay below, in bytes. -/
def nameLimit : Nat := 4096

/-- A directory on the way: inside the tree, or some levels above it. -/
inductive Place where
  | inside (parts : List Text)
  | above (levels : Nat)

/-- Follow the parts of a name from a directory. Nothing is known about what lies above the tree but
that it consists of directories. -/
def walk (tree : FileTree) : Place → List Text → Except FileError (List UInt8)
  | _, [] => .error .isADirectory
  | place, part :: rest =>
      if part = ".." then
        match place with
        | .inside [] => tree.walk (.above 1) rest
        | .inside (first :: more) => tree.walk (.inside (first :: more).dropLast) rest
        | .above levels => tree.walk (.above (levels + 1)) rest
      else if partLimit < byteCount part then .error .nameTooLong
      else
        match place with
        | .above _ => .error .notFound
        | .inside parts =>
            let here := parts ++ [part]
            match tree.files.lookup here with
            | some content => if rest.isEmpty then .ok content else .error .notADirectory
            | none =>
                if tree.isDirectory here then tree.walk (.inside here) rest else .error .notFound

/-- The view of a program that runs in the directory. -/
def view (tree : FileTree) : FileView := fun name =>
  if nameLimit ≤ byteCount name.toText then .error .nameTooLong
  else tree.walk (if name.leading = 0 then .inside [] else .above 0) name.parts

end FileTree

end TreeCalculus.Command
