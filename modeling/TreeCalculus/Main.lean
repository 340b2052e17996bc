import TreeCalculus.Command.Run

/-!
The program: it reads the environment and the files that the command line names, and prints what the
run of the command says.
-/

namespace TreeCalculus.Command

/-- The number that the system gave to a failure, with its description. -/
def systemReason : IO.Error → Nat × String
  | .alreadyExists _ code details | .otherError code details | .resourceBusy code details
  | .resourceVanished code details | .unsupportedOperation code details
  | .hardwareFault code details | .unsatisfiedConstraints code details
  | .illegalOperation code details | .protocolError code details | .timeExpired code details
  | .interrupted _ code details | .noFileOrDirectory _ code details
  | .invalidArgument _ code details | .permissionDenied _ code details
  | .resourceExhausted _ code details | .inappropriateType _ code details
  | .noSuchThing _ code details => (code.toNat, details)
  | .unexpectedEof => (0, "Unexpected end of file")
  | .userError details => (0, details)

/-- The number of a failure without its sign; some failures are numbered downwards from zero. -/
def unsigned (code : Nat) : Nat := if code < 0x80000000 then code else 0x100000000 - code

/-- The reason of a failure to read a file. -/
def fileError (e : IO.Error) : FileError :=
  let reason := systemReason e
  match unsigned reason.1 with
  | 2 => .notFound
  | 20 => .notADirectory
  | 21 => .isADirectory
  | 36 => .nameTooLong
  | code => .other code reason.2.capitalize

/-- The string of a text, in which half of a pair is written by its number. -/
def display (t : Text) : String :=
  String.ofList (t.toList.flatMap fun
    | .char c => [c]
    | c => Text.escapeCode c)

/-- Read a file of the disk. -/
def readFromDisk (name : PathName) : IO (Except FileError (List UInt8)) := do
  try
    let bytes ← IO.FS.readBinFile (display name.toText)
    return .ok bytes.toList
  catch e => return .error (fileError e)

end TreeCalculus.Command

open TreeCalculus TreeCalculus.Command

/-- Run the program. -/
def main (strings : List String) : IO UInt32 := do
  let args := strings.map Text.ofString
  let env : Environment :=
    { steps := (← IO.getEnv Settings.stepsVariable).map Text.ofString
      level := (← IO.getEnv Settings.levelVariable).map Text.ofString }
  let names := (filesRead env args).map PathName.ofText
  let contents ← names.mapM readFromDisk
  let table := names.zip contents
  let view : FileView := fun name => (table.lookup name).getD (.error .notFound)
  let outcome := run .utf8 env view args
  IO.print (display outcome.out)
  IO.eprint (display outcome.err)
  match outcome.ending with
  | .status n | .answered n => return n.toUInt32
  | .fault f =>
      IO.eprintln (display f.message)
      return 1
