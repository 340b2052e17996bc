import TreeCalculus.Command.Console
import TreeCalculus.Command.Files
import TreeCalculus.Command.Invocation
import TreeCalculus.Document.Decode
import TreeCalculus.Outline
import TreeCalculus.Proof.Ancestry
import TreeCalculus.Text.Utf8

/-!
The commands.

A run maps the environment, the files and the command line to what is printed and how the program
ends. Most problems with a file are reported by the command and affect the status only; a few end
the program where they arise, and so does a text that the output cannot express.

* `FileProblem`: what can be wrong with a file; `FileProblem.report?` tells the two sorts apart.
* `readObject`, `readProof`, `readTerm`: the object, proof or term in a file.
* `Console.print`, `Console.printAll`: printing before the program goes on.
* `showFile`, `checkFiles`, `normalizeFile`, `preludeLines`: the four commands.
* `run`: a whole run.
-/

namespace TreeCalculus.Command

open Json (Value)

/-! ### Files -/

/-- What can be wrong with a file. -/
inductive FileProblem where
  /-- The name holds a character that no name may hold. -/
  | nullInName
  | unreadable (name : PathName) (e : FileError)
  | notText (e : Text.Utf8Error)
  | notJson (e : Json.ReadError)
  | notAnObject
  | noRoot
  | notAProof (e : Document.DecodeError)
  | notATerm (e : Document.DecodeError)

namespace FileProblem

/-- The wording of a problem. -/
def message : FileProblem → Text
  | nullInName => "embedded null byte"
  | unreadable name e => "Could not read file: " ++ e.message name
  | notText e => e.message
  | notJson (.numeral e) => e.message
  | notJson e => "Invalid JSON: " ++ e.message
  | notAnObject => "Expected a JSON object"
  | noRoot => "Not a saved proof (missing 'root')"
  | notAProof (.notANode kind) => (Document.DecodeError.notANode kind).message
  | notAProof e => "Malformed proof: " ++ e.message
  | notATerm e => "Malformed term: " ++ e.message

/-- Whether a problem is reported by the command; the others end the program. -/
def isReported : FileProblem → Bool
  | nullInName | notText _ | notJson (.numeral _) | notAProof (.notANode _) => false
  | _ => true

/-- The report of a problem, if it is reported. -/
def report? (p : FileProblem) : Option Text := if p.isReported then some p.message else none

end FileProblem

/-- The text of a file, with every line ended by a line feed. -/
def readText (view : FileView) (path : Text) : Except FileProblem Text :=
  if path.toList.contains (.char (Char.ofNat 0)) then .error .nullInName
  else
    let name := PathName.ofText path
    match view name with
    | .error e => .error (.unreadable name e)
    | .ok bytes =>
        match Text.decodeUtf8 bytes with
        | .error e => .error (.notText e)
        | .ok cs => .ok (.ofList ((Text.unifyNewlines cs).map .char))

/-- The object in a file, by its members. -/
def readObject (view : FileView) (path : Text) : Except FileProblem (List (Text × Value)) := do
  let text ← readText view path
  match Json.parse text with
  | .error e => .error (.notJson e)
  | .ok (.obj fields) => .ok fields
  | .ok _ => .error .notAnObject

/-- The proof in a file. -/
def readProof (view : FileView) (path : Text) : Except FileProblem (Proof Value) := do
  let fields ← readObject view path
  match fields.lookup (Text.ofString "root") with
  | none => .error .noRoot
  | some _ => (Proof.ofValue (.obj fields)).mapError .notAProof

/-- The term in a file. -/
def readTerm (view : FileView) (path : Text) : Except FileProblem (Term Value) := do
  let fields ← readObject view path
  (Document.termOf (.obj fields)).mapError .notATerm

/-! ### Outcomes -/

/-- What ends the program where it arises. -/
inductive Fault where
  | file (p : FileProblem)
  | settings (e : SettingsError)
  | unfolding (e : UnfoldError Value)
  | encoding (e : EncodeError)

/-- The wording of a fault. -/
def Fault.message : Fault → Text
  | file p => p.message
  | settings e => e.message
  | unfolding e => e.message
  | encoding e => e.message

/-- How the program ends. -/
inductive Ending where
  /-- A command was carried out, with a status. -/
  | status (n : Nat)
  /-- The command line itself was answered, with help or a report. -/
  | answered (n : Nat)
  /-- The program broke off. -/
  | fault (f : Fault)

/-- What a run prints and how it ends. -/
structure Outcome where
  out : Text := ""
  err : Text := ""
  ending : Ending

/-- Print a text and go on; the program ends if the text cannot be expressed. -/
def Console.print (console : Console) (t : Text) (next : Outcome) : Outcome :=
  match console.failure? t with
  | none => { next with out := t ++ next.out }
  | some e => { ending := .fault (.encoding e) }

/-- Print several texts one after the other and go on. -/
def Console.printAll (console : Console) (ts : List Text) (next : Outcome) : Outcome :=
  ts.foldr console.print next

/-! ### The commands -/

/-- Print the outline of a saved proof. -/
def showFile (console : Console) (view : FileView) (path : Text) : Outcome :=
  match readProof view path with
  | .ok proof => console.print (proof.outline (some path)) { ending := .status 0 }
  | .error problem =>
      match problem.report? with
      | some text => { err := path ++ ": " ++ text ++ "\n", ending := .status 1 }
      | none => { ending := .fault (.file problem) }

/-- The line on the state of a proof. -/
def statusLine (path : Text) (proof : Proof Value) : Text :=
  path ++ ": " ++ (if proof.isComplete then "COMPLETE" else "INCOMPLETE") ++ " (" ++
    toString proof.openNodes.length ++ " open goals)\n"

/-- The line on a back-link that is not valid. -/
def linkLine (id : Value) : Text := "  invalid back-link at " ++ Naming.toText id ++ "\n"

/-- The lines of the check of a proof. -/
def checkLines (path : Text) (proof : Proof Value) : List Text :=
  statusLine path proof :: proof.invalidBackLinks.map linkLine

/-- A proof passes if it is complete and its back-links are valid. -/
def passes {ν : Type} [BEq ν] [Naming ν] (proof : Proof ν) : Bool :=
  proof.isComplete && proof.invalidBackLinks.isEmpty

/-- Check saved proofs one after the other; `ok` tells whether those before them pass. -/
def checkFrom (console : Console) (view : FileView) : (ok : Bool) → (paths : List Text) → Outcome
  | ok, [] => { ending := .status (if ok then 0 else 1) }
  | ok, path :: rest =>
      match readProof view path with
      | .ok proof =>
          console.printAll (checkLines path proof)
            (checkFrom console view (ok && passes proof) rest)
      | .error problem =>
          match problem.report? with
          | some text =>
              console.print (path ++ ": ERROR " ++ text ++ "\n") (checkFrom console view false rest)
          | none => { ending := .fault (.file problem) }

/-- Check saved proofs. -/
def checkFiles (console : Console) (view : FileView) (paths : List Text) : Outcome :=
  checkFrom console view true paths

/-- The lines on the reduction of a term. -/
def reductionLines (bound : Int) (reduced : Term.Reduced Value) : List Text :=
  ["result: " ++ reduced.term.toText ++ "\n",
   if reduced.term.isNormal then
      "normal form after " ++ toString reduced.steps ++ " step" ++
        (if reduced.steps = 1 then "" else "s") ++ "\n"
    else "stopped at bound (" ++ toString bound ++ " steps)\n"]

/-- The lines of a log that are shown. -/
def logLines (threshold : LogLevel) (events : List Event) : Text :=
  Text.join ((events.filter (·.isShown threshold)).map fun e => e.line ++ "\n")

/-- Reduce a term and print what became of it, behind the log of the reduction. -/
def reduceAndPrint (console : Console) (settings : Settings) (bound : Int) (t : Term Value) :
    Outcome :=
  let reduced := t.reduce bound
  let log := logLines settings.logLevel (if reduced.atBound then [.stoppedAtBound bound] else [])
  let printed := console.printAll (reductionLines bound reduced) { ending := .status 0 }
  { printed with err := log ++ printed.err }

/-- Reduce the term in a file, after unfolding if that is asked for. -/
def normalizeFile (console : Console) (settings : Settings) (view : FileView) (path : Text)
    (bound : Int) (unfold : Bool) : Outcome :=
  match readTerm view path with
  | .error problem =>
      match problem.report? with
      | some text => { err := path ++ ": " ++ text ++ "\n", ending := .status 1 }
      | none => { ending := .fault (.file problem) }
  | .ok t =>
      console.print ("term:   " ++ t.toText ++ "\n")
        (if unfold then
          match t.unfoldAll Prelude.definitions.embed Term.defaultDepth with
          | .error e => { ending := .fault (.unfolding e) }
          | .ok t' =>
              console.print ("unfold: " ++ t'.toText ++ "\n")
                (reduceAndPrint console settings bound t')
        else reduceAndPrint console settings bound t)

/-- The list of the built-in definitions and theorems. -/
def preludeLines : List Text :=
  (("Definitions:\n" : Text) ::
    Prelude.definitions.entries.map fun entry =>
      "  " ++ entry.1 ++ " := " ++ entry.2.toText ++ "\n") ++
    (("Theorems:\n" : Text) ::
      Prelude.statements.map fun entry =>
        "  " ++ entry.1 ++ ": " ++ entry.2.goal.toText ++ "\n")

/-! ### Runs -/

/-- The values of the variables that the program reads. -/
structure Environment where
  steps : Option Text := none
  level : Option Text := none

/-- The settings of an environment. -/
def Environment.settings (env : Environment) : Except SettingsError Settings :=
  Settings.read env.steps env.level

/-- Carry out what a command line asks for. -/
def Invocation.execute (console : Console) (settings : Settings) (view : FileView) :
    Invocation → Outcome
  | .help program => console.print (program.help settings.maxSteps) { ending := .answered 0 }
  | .bare => console.print (Program.main.help settings.maxSteps) { ending := .status 1 }
  | .showProof file => showFile console view file
  | .checkProofs files => checkFiles console view files
  | .normalizeTerm file bound unfold => normalizeFile console settings view file bound unfold
  | .listPrelude => console.printAll preludeLines { ending := .status 0 }

/-- The files that a command line asks for. -/
def Invocation.files : Invocation → List Text
  | .showProof file => [file]
  | .checkProofs files => files
  | .normalizeTerm file _ _ => [file]
  | .help _ | .bare | .listPrelude => []

/-- The files that a run reads. -/
def filesRead (env : Environment) (args : List Text) : List Text :=
  match env.settings with
  | .error _ => []
  | .ok settings =>
      match Invocation.parse settings args with
      | .error _ => []
      | .ok request => request.files

/-- A whole run: the settings first, then the command line, then the command. -/
def run (console : Console) (env : Environment) (view : FileView) (args : List Text) : Outcome :=
  match env.settings with
  | .error e =>
      if e.isVerdict then
        { err := "Configuration error: " ++ e.message ++ "\n", ending := .status 2 }
      else { ending := .fault (.settings e) }
  | .ok settings =>
      match Invocation.parse settings args with
      | .error e => { err := e.report, ending := .answered 2 }
      | .ok request => request.execute console settings view

end TreeCalculus.Command
