import TreeCalculus.Command.Options
import TreeCalculus.Text.Fill

/-!
The commands, their grammars, and their help.

* `Program`: the program as a whole and its four commands.
* `Program.grammar`: what each accepts.
* `Program.help`: the help text of each; that of `normalize` names the bound in force.
* `UsageError`: a problem with a command line, reported by the program that found it.
-/

namespace TreeCalculus.Command

/-- The program as a whole, or one of its commands. -/
inductive Program where
  | main
  | showProof
  | checkProofs
  | normalizeTerm
  | listPrelude
  deriving DecidableEq

namespace Program

/-- The commands in the order in which they are listed. -/
def commands : List Program := [showProof, checkProofs, normalizeTerm, listPrelude]

/-- The word for a command. -/
def word : Program → Text
  | main => ""
  | showProof => "show"
  | checkProofs => "check"
  | normalizeTerm => "normalize"
  | listPrelude => "prelude"

/-- The command with a given word. -/
def ofWord? (word : Text) : Option Program := commands.find? (·.word == word)

/-- The name under which a program speaks. -/
def name : Program → Text
  | main => "treeq"
  | program => "treeq " ++ program.word

/-! ### Grammars -/

/-- The option that asks for help. -/
def helpFlag : Flag := { names := ["-h", "--help"] }

/-- The option that sets the bound on reduction steps. -/
def stepsFlag : Flag := { names := ["--max-steps"], takesValue := true }

/-- The option that asks for unfolding. -/
def unfoldFlag : Flag := { names := ["--unfold"] }

/-- What a program accepts. -/
def grammar : Program → Grammar
  | main =>
      { flags := [helpFlag]
        positional := some { label := "command", arity := .command, required := false } }
  | showProof => { flags := [helpFlag], positional := some { label := "FILE", arity := .one } }
  | checkProofs => { flags := [helpFlag], positional := some { label := "FILE", arity := .many } }
  | normalizeTerm =>
      { flags := [helpFlag, stepsFlag, unfoldFlag]
        positional := some { label := "FILE", arity := .one } }
  | listPrelude => { flags := [helpFlag] }

/-! ### Help -/

/-- The line that shows how a program is called. -/
def usage : Program → String
  | main => "usage: treeq [-h] \x7bshow,check,normalize,prelude\x7d ...\n"
  | showProof => "usage: treeq show [-h] FILE\n"
  | checkProofs => "usage: treeq check [-h] FILE [FILE ...]\n"
  | normalizeTerm => "usage: treeq normalize [-h] [--max-steps MAX_STEPS] [--unfold] FILE\n"
  | listPrelude => "usage: treeq prelude [-h]\n"

/-- The column at which long explanations begin. -/
def helpColumn : Nat := 24

/-- The width of long explanations. -/
def helpWidth : Nat := 54

/-- The explanation of the bound, on lines of its own. -/
def boundHelp (bound : Int) : String :=
  let words := ["Rewrite", "bound", "(default:", toString bound ++ ")."]
  let margin := String.ofList (List.replicate helpColumn ' ')
  String.join ((Text.fill helpWidth words).map fun line => margin ++ line ++ "\n")

/-- What follows the usage line in the help of a program. -/
def helpBody (bound : Int) : Program → String
  | main =>
      "\nTree calculus terms and cyclic equality proofs\n" ++
      "\npositional arguments:\n" ++
      "  \x7bshow,check,normalize,prelude\x7d\n" ++
      "                        Available commands\n" ++
      "    show                Print a saved proof as an outline.\n" ++
      "    check               Check saved proofs for completeness and valid back-\n" ++
      "                        links.\n" ++
      "    normalize           Reduce a term given as JSON.\n" ++
      "    prelude             List built-in definitions and theorems.\n" ++
      "\noptions:\n" ++
      "  -h, --help            show this help message and exit\n"
  | showProof =>
      "\npositional arguments:\n" ++
      "  FILE        Saved proof (JSON).\n" ++
      "\noptions:\n" ++
      "  -h, --help  show this help message and exit\n"
  | checkProofs =>
      "\npositional arguments:\n" ++
      "  FILE        Saved proof(s) (JSON).\n" ++
      "\noptions:\n" ++
      "  -h, --help  show this help message and exit\n"
  | normalizeTerm =>
      "\npositional arguments:\n" ++
      "  FILE                  Term (JSON).\n" ++
      "\noptions:\n" ++
      "  -h, --help            show this help message and exit\n" ++
      "  --max-steps MAX_STEPS\n" ++
      boundHelp bound ++
      "  --unfold              Expand prelude definitions before reducing.\n"
  | listPrelude =>
      "\noptions:\n" ++
      "  -h, --help  show this help message and exit\n"

/-- The help of a program, where `bound` is the bound on reduction steps in force. -/
def help (bound : Int) (program : Program) : String := program.usage ++ program.helpBody bound

end Program

/-- A problem with a command line and the program that found it. -/
structure UsageError where
  program : Program
  problem : UsageProblem
  deriving DecidableEq

/-- The report of a problem: how the program is called, and what is wrong. -/
def UsageError.report (e : UsageError) : Text :=
  e.program.usage ++ e.program.name ++ ": error: " ++ e.problem.message ++ "\n"

end TreeCalculus.Command
