import TreeCalculus.Text.Quoted

/-!
The encoding of what is printed.

A text that holds code points which the encoding of the output cannot express is not printed at all.
The report names the first such code points that stand together, by their places in the text.

* `Console`: an encoding; `Console.utf8` expresses all characters, but no lone half of a pair.
* `EncodeError`: what cannot be expressed, and its wording.
* `Console.failure?`: the failure to print a text.
-/

namespace TreeCalculus.Command

/-- The encoding of the output. -/
structure Console where
  /-- The name of the encoding. -/
  encoding : Text
  /-- The code points that can be expressed. -/
  expresses : CodePoint → Bool
  /-- What is said of the others. -/
  reason : Text

/-- Code points of a text that cannot be expressed and stand together. -/
structure EncodeError where
  encoding : Text
  /-- The place of the first one. -/
  position : Nat
  first : CodePoint
  /-- How many stand behind the first one. -/
  more : Nat
  reason : Text

/-- The wording of a failure to print. -/
def EncodeError.message (e : EncodeError) : Text :=
  let place : Text :=
    if e.more = 0 then
      "character '" ++ .ofList ((Text.escapeCode e.first).map .char) ++ "' in position " ++
        toString e.position
    else
      "characters in position " ++ toString e.position ++ "-" ++ toString (e.position + e.more)
  "'" ++ e.encoding ++ "' codec can't encode " ++ place ++ ": " ++ e.reason

namespace Console

/-- The encoding in common use. -/
def utf8 : Console where
  encoding := "utf-8"
  expresses
    | .char _ => true
    | .half _ => false
  reason := "surrogates not allowed"

/-- Why a text cannot be printed. -/
def failure? (console : Console) (t : Text) : Option EncodeError :=
  match t.toList.dropWhile console.expresses with
  | [] => none
  | first :: rest =>
      some
        { encoding := console.encoding
          position := (t.toList.takeWhile console.expresses).length
          first
          more := (rest.takeWhile fun c => !console.expresses c).length
          reason := console.reason }

end Console

end TreeCalculus.Command
