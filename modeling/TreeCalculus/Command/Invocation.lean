import TreeCalculus.Command.Usage
import TreeCalculus.Settings

/-!
From command lines to requests.

The program as a whole looks for a command and hands everything behind it to the command's own
grammar. The requests of a grammar are carried out in order, so a call for help ends the analysis
where it stands, before later problems. Arguments that nobody took are reported at the very end, by
the program as a whole.

* `Invocation`: what a command line asks for.
* `Invocation.parse`: read a command line, given the settings in force.
-/

namespace TreeCalculus.Command

/-- What a command line asks for. -/
inductive Invocation where
  | help (program : Program)
  /-- No command was given. -/
  | bare
  | showProof (file : Text)
  | checkProofs (files : List Text)
  | normalizeTerm (file : Text) (bound : Int) (unfold : Bool)
  | listPrelude
  deriving DecidableEq

namespace Invocation

/-- The values collected for a command. -/
structure Values where
  files : List Text := []
  bound : Int
  unfold : Bool := false

/-- The end of an analysis before all requests are carried out. -/
inductive Stop where
  | help
  | problem (p : UsageProblem)

/-- Carry out one request. -/
def carryOut (values : Values) : Action → Except Stop Values
  | .positional files => .ok { values with files }
  | .option flag value =>
      if flag = Program.stepsFlag then
        let text := value.getD ""
        match Text.readInt text with
        | .ok bound => .ok { values with bound }
        | .error _ => .error (.problem (.badInteger flag.label text))
      else if flag = Program.unfoldFlag then .ok { values with unfold := true }
      else .error .help

/-- Carry out the requests of an analysis and then raise the problem that ended it. -/
def collect (values : Values) (scan : Scan) : Except Stop Values := do
  let values ← scan.actions.foldlM carryOut values
  match scan.problem with
  | some problem => .error (.problem problem)
  | none => return values

/-- The request for a command with the values collected for it. -/
def ofValues (program : Program) (values : Values) : Invocation :=
  match program with
  | .main => bare
  | .showProof => showProof (values.files.headD "")
  | .checkProofs => checkProofs values.files
  | .normalizeTerm => normalizeTerm (values.files.headD "") values.bound values.unfold
  | .listPrelude => listPrelude

/-- Read the arguments of a command; also return what was left over. -/
def parseCommand (bound : Int) (program : Program) (args : List Text) :
    Except UsageError (Invocation × List Text) :=
  let scan := program.grammar.scan args
  match collect { bound } scan with
  | .ok values => .ok (ofValues program values, scan.leftOver)
  | .error .help => .ok (help program, [])
  | .error (.problem problem) => .error { program, problem }

/-- Whether a request is a call for help. -/
def isHelp : Invocation → Bool
  | help _ => true
  | _ => false

/-- Read what follows the options of the program as a whole. -/
def parseActions (bound : Int) : List Action → Except UsageError (Invocation × List Text)
  | [] => .ok (bare, [])
  | .positional (word :: args) :: _ =>
      match Program.ofWord? word with
      | some program => parseCommand bound program args
      | none =>
          let choices := Program.commands.map Program.word
          .error { program := .main, problem := .unknownChoice "command" word choices }
  | _ :: _ => .ok (help .main, [])

/-- Read a command line. -/
def parse (settings : Settings) (args : List Text) : Except UsageError Invocation := do
  let scan := Program.main.grammar.scan args
  let (request, leftOver) ← parseActions settings.maxSteps scan.actions
  if request.isHelp then return request
  match scan.problem with
  | some problem => .error { program := .main, problem }
  | none =>
      match scan.leftOver ++ leftOver with
      | [] => return request
      | args => .error { program := .main, problem := .leftOver args }

end Invocation

end TreeCalculus.Command
