import TreeCalculus.Text.Digit
import TreeCalculus.Text.Quoted

/-!
Options and plain arguments on a command line.

The arguments are sorted first. A lone `--` makes everything after it plain. An argument with a dash
in front is an option, unless it is the dash alone, looks like a negative number, or holds a space;
a long option may be shortened as long as it stays unambiguous, and may carry its value after an
equals sign. Then the options are served from left to right, the plain arguments go to the one
positional parameter as soon as it can take them, and what nobody takes is left over.

* `Flag`, `Positional`, `Grammar`: what a command accepts.
* `Token`, `Grammar.tokens`: the arguments after sorting.
* `Action`, `Scan`: the requests in the order in which they are made, what is left over, and the
  problem that ended the scan, if any.
* `Grammar.scan`: the whole analysis.
-/

namespace TreeCalculus.Command

/-! ### Grammars -/

/-- An option with its spellings, and whether it takes a value. -/
structure Flag where
  names : List Text
  takesValue : Bool := false
  deriving DecidableEq

/-- The spellings of an option in messages. -/
def Flag.label (f : Flag) : Text := Text.intercalate "/" f.names

/-- How much the positional parameter takes. -/
inductive Arity where
  /-- One argument. -/
  | one
  /-- One argument or more. -/
  | many
  /-- A command with everything behind it. -/
  | command
  deriving DecidableEq

/-- The positional parameter of a grammar. -/
structure Positional where
  /-- Its name in messages. -/
  label : Text
  arity : Arity
  required : Bool := true
  deriving DecidableEq

/-- What a command accepts. -/
structure Grammar where
  flags : List Flag
  positional : Option Positional := none

/-- The spellings of all options, each with its option. -/
def Grammar.spellings (g : Grammar) : List (Text × Flag) :=
  g.flags.flatMap fun f => f.names.map fun name => (name, f)

/-! ### Problems -/

/-- What can be wrong with a command line. -/
inductive UsageProblem where
  | ambiguous (option : Text) (candidates : List Text)
  | unwantedValue (option : Text) (value : Text)
  | missingValue (option : Text)
  | missingArgument (label : Text)
  | badInteger (option : Text) (value : Text)
  | unknownChoice (label : Text) (value : Text) (choices : List Text)
  | leftOver (args : List Text)
  deriving DecidableEq

/-- The wording of a problem. -/
def UsageProblem.message : UsageProblem → Text
  | ambiguous option candidates =>
      "ambiguous option: " ++ option ++ " could match " ++ Text.intercalate ", " candidates
  | unwantedValue option value =>
      "argument " ++ option ++ ": ignored explicit argument " ++ Text.quoted value
  | missingValue option => "argument " ++ option ++ ": expected one argument"
  | missingArgument label => "the following arguments are required: " ++ label
  | badInteger option value =>
      "argument " ++ option ++ ": invalid int value: " ++ Text.quoted value
  | unknownChoice label value choices =>
      "argument " ++ label ++ ": invalid choice: " ++ Text.quoted value ++ " (choose from " ++
        Text.intercalate ", " (choices.map Text.quoted) ++ ")"
  | leftOver args => "unrecognized arguments: " ++ Text.intercalate " " args

/-! ### Sorting the arguments -/

/-- An argument after sorting. -/
inductive Token where
  /-- A plain argument. -/
  | plain (arg : Text)
  /-- The mark that ends the options. -/
  | endOfOptions
  /-- A known option under one of its spellings, with the value written in the same argument. -/
  | known (arg : Text) (flag : Flag) (spelling : Text) (value : Option Text)
  /-- An option that the grammar does not know. -/
  | unknown (arg : Text)

/-- The argument of a token as it was given. -/
def Token.arg : Token → Text
  | plain arg => arg
  | endOfOptions => "--"
  | known arg _ _ _ => arg
  | unknown arg => arg

/-- Digits, at least one. -/
def areDigits (cs : List CodePoint) : Bool := !cs.isEmpty && cs.all Text.isDigit

/-- Whether an argument looks like a negative number: a dash, then digits, or digits around a point
of which the last part is not empty. One line feed may follow. -/
def looksNegative : List CodePoint → Bool
  | .char '-' :: body =>
      let number := if body.getLast? = some (.char '\n') then body.dropLast else body
      areDigits number ||
        match number.dropWhile Text.isDigit with
        | .char '.' :: fraction => areDigits fraction
        | _ => false
  | _ => false

/-- An argument cut at its first equals sign. -/
def cutAtEquals? (cs : List CodePoint) : Option (Text × Text) :=
  match cs.dropWhile (· != .char '=') with
  | [] => none
  | _ :: value => some (.ofList (cs.takeWhile (· != .char '=')), .ofList value)

/-- The readings of an argument that spells no option in full: a long option may be shortened, and
the value of a short one may follow its letter. -/
def Grammar.readings (g : Grammar) (arg : Text) : List Token :=
  match arg.toList with
  | .char '-' :: .char '-' :: _ =>
      let cut := match cutAtEquals? arg.toList with
        | some (name, value) => (name, some value)
        | none => (arg, none)
      (g.spellings.filter fun entry => entry.1.beginsWith cut.1).map fun entry =>
        .known arg entry.2 entry.1 cut.2
  | dash :: letter :: rest =>
      let short := Text.ofList [dash, letter]
      g.spellings.filterMap fun entry =>
        if entry.1 = short then
          some (.known arg entry.2 entry.1 (some (Text.ofList rest)))
        else if entry.1.beginsWith arg then some (.known arg entry.2 entry.1 none)
        else none
  | _ => []

/-- The spelling under which a token was read. -/
def Token.spelling : Token → Text
  | known _ _ spelling _ => spelling
  | token => token.arg

/-- Sort one argument. -/
def Grammar.token (g : Grammar) (arg : Text) : Except UsageProblem Token :=
  match arg.toList with
  | .char '-' :: _ :: _ =>
      match g.spellings.lookup arg with
      | some flag => .ok (.known arg flag arg none)
      | none =>
          let named := (cutAtEquals? arg.toList).bind fun cut =>
            (g.spellings.lookup cut.1).map fun flag =>
              Token.known arg flag cut.1 (some cut.2)
          match named with
          | some token => .ok token
          | none =>
              match g.readings arg with
              | [token] => .ok token
              | first :: second :: rest =>
                  .error (.ambiguous arg ((first :: second :: rest).map Token.spelling))
              | [] =>
                  if looksNegative arg.toList || arg.toList.contains (.char ' ') then
                    .ok (.plain arg)
                  else .ok (.unknown arg)
  | _ => .ok (.plain arg)

/-- Sort the arguments. -/
def Grammar.tokens (g : Grammar) : List Text → Except UsageProblem (List Token)
  | [] => .ok []
  | arg :: rest =>
      if arg = "--" then .ok (.endOfOptions :: rest.map .plain)
      else do
        let token ← g.token arg
        let others ← g.tokens rest
        return token :: others

/-! ### Serving the tokens -/

/-- A request made by the arguments. -/
inductive Action where
  /-- An option, with its value if it takes one. -/
  | option (flag : Flag) (value : Option Text)
  /-- The arguments of the positional parameter. -/
  | positional (args : List Text)

/-- The outcome of the analysis: requests in order, what is left over, and a problem after them. -/
structure Scan where
  actions : List Action := []
  leftOver : List Text := []
  problem : Option UsageProblem := none

/-- A request in front of an outcome. -/
def Scan.act (action : Action) (s : Scan) : Scan := { s with actions := action :: s.actions }

/-- Left-over arguments in front of an outcome. -/
def Scan.leave (args : List Text) (s : Scan) : Scan := { s with leftOver := args ++ s.leftOver }

/-- The outcome of a problem. -/
def Scan.stop (problem : UsageProblem) : Scan := { problem := some problem }

/-- The state of the positional parameter. -/
inductive Slot where
  /-- There is none, or it has its arguments. -/
  | closed
  /-- It waits for its arguments. -/
  | waiting (p : Positional)
  /-- It has arguments and takes all plain ones that follow at once. -/
  | taking (args : List Text)

/-- The end of the arguments. -/
def Slot.finish : Slot → Scan
  | closed => {}
  | waiting p => if p.required then .stop (.missingArgument p.label) else {}
  | taking args => { actions := [.positional args] }

/-- The end of the options: `rest` holds plain arguments only. A command takes the mark itself. -/
def Slot.finishPlain (slot : Slot) (rest : List Text) : Scan :=
  match slot, rest with
  | closed, _ => { leftOver := "--" :: rest }
  | waiting _, [] => .leave ["--"] slot.finish
  | waiting p, arg :: more =>
      match p.arity with
      | .one => { actions := [.positional [arg]], leftOver := more }
      | .many => { actions := [.positional (arg :: more)] }
      | .command => { actions := [.positional ("--" :: arg :: more)] }
  | taking args, _ => { actions := [.positional (args ++ rest)] }

/-- A short option whose value spells further short options, letter by letter. Every letter has to
be an option, and short options take no values themselves. -/
def Grammar.cluster (g : Grammar) (flag : Flag) :
    List CodePoint → Except UsageProblem (List Flag)
  | [] => .ok [flag]
  | letter :: rest =>
      match g.spellings.lookup (Text.ofList [.char '-', letter]) with
      | some next => (g.cluster next rest).map fun flags => flag :: flags
      | none => .error (.unwantedValue flag.label (Text.ofList (letter :: rest)))

/-- Whether a spelling has one dash only. -/
def isShort (spelling : Text) : Bool := !spelling.beginsWith "--"

/-- The requests of an option that carries a value in the same argument. It makes no difference
whether an equals sign stands in front of the value. -/
def Grammar.withValue (g : Grammar) (flag : Flag) (spelling value : Text) :
    Except UsageProblem (List Action) :=
  if flag.takesValue then .ok [.option flag (some value)]
  else if isShort spelling && !value.isEmpty then
    (g.cluster flag value.toList).map fun flags => flags.map fun next => .option next none
  else .error (.unwantedValue flag.label value)

/-- Close a parameter that is taking arguments, because an option follows. -/
def Slot.close : Slot → Slot × List Action
  | taking args => (closed, [.positional args])
  | slot => (slot, [])

/-- Serve the tokens from left to right. -/
def Grammar.serve (g : Grammar) : (slot : Slot) → List Token → Scan
  | slot, [] => slot.finish
  | slot, .endOfOptions :: rest => slot.finishPlain (rest.map Token.arg)
  | slot, .plain arg :: rest =>
      match slot with
      | .closed => .leave [arg] (g.serve .closed rest)
      | .taking args => g.serve (.taking (args ++ [arg])) rest
      | .waiting p =>
          match p.arity with
          | .many => g.serve (.taking [arg]) rest
          | .command => { actions := [.positional (arg :: rest.map Token.arg)] }
          | .one =>
              .act (.positional [arg])
                (match rest with
                | .endOfOptions :: more => { leftOver := more.map Token.arg }
                | _ => g.serve .closed rest)
  | slot, .unknown arg :: rest =>
      let closing := slot.close
      closing.2.foldr Scan.act (.leave [arg] (g.serve closing.1 rest))
  | slot, .known _ flag spelling (some value) :: rest =>
      let closing := slot.close
      closing.2.foldr Scan.act
        (match g.withValue flag spelling value with
        | .error problem => .stop problem
        | .ok actions => actions.foldr Scan.act (g.serve closing.1 rest))
  | slot, .known _ flag _ none :: rest =>
      let closing := slot.close
      closing.2.foldr Scan.act
        (if flag.takesValue then
          match rest with
          | .plain value :: more => .act (.option flag (some value)) (g.serve closing.1 more)
          | _ => .stop (.missingValue flag.label)
        else .act (.option flag none) (g.serve closing.1 rest))

/-- Analyse the arguments of a command. -/
def Grammar.scan (g : Grammar) (args : List Text) : Scan :=
  match g.tokens args with
  | .error problem => .stop problem
  | .ok tokens =>
      g.serve
        (match g.positional with
        | none => .closed
        | some p => .waiting p)
        tokens

end TreeCalculus.Command
