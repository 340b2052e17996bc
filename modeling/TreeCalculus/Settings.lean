import TreeCalculus.Event
import TreeCalculus.Reduction
import TreeCalculus.Text.Capital
import TreeCalculus.Text.Numeral

/-!
Settings from the environment.

Two variables are read: the bound on reduction steps and the level from which events are shown. A
variable that is unset or empty leaves the default. The bound is judged by the text without the
white space around it, but it is read from the text as it is; where the two disagree about what
white space is, reading fails.

* `LogLevel`: the levels, by name and severity.
* `SettingsError`: values that are not accepted, and a number that cannot be read.
* `Settings.read`: the settings of an environment.
-/

namespace TreeCalculus

/-! ### Levels -/

/-- The levels from which events can be shown. -/
inductive LogLevel where
  | critical
  | fatal
  | error
  | warn
  | warning
  | info
  | debug
  | notset
  deriving DecidableEq

namespace LogLevel

/-- The name of a level. -/
def name : LogLevel → Text
  | critical => "CRITICAL"
  | fatal => "FATAL"
  | error => "ERROR"
  | warn => "WARN"
  | warning => "WARNING"
  | info => "INFO"
  | debug => "DEBUG"
  | notset => "NOTSET"

/-- How grave an event has to be to be shown. -/
def severity : LogLevel → Nat
  | critical | fatal => 50
  | error => 40
  | warn | warning => 30
  | info => 20
  | debug => 10
  | notset => 0

/-- All levels. -/
def all : List LogLevel := [critical, fatal, error, warn, warning, info, debug, notset]

/-- The level with a given name, in any case and with white space around it. -/
def ofText? (text : Text) : Option LogLevel :=
  (Text.basicUpper? (Text.strip text)).bind fun upper => all.find? (·.name == upper)

end LogLevel

/-- The level of an event among all levels. -/
def Event.Level.toLogLevel : Event.Level → LogLevel
  | debug => .debug
  | warning => .warning

/-- Whether events are shown from a level on. -/
def Event.isShown {ν : Type} (e : Event ν) (threshold : LogLevel) : Bool :=
  threshold.severity ≤ e.level.toLogLevel.severity

/-! ### Settings -/

/-- What the environment decides. -/
structure Settings where
  /-- The bound on reduction steps. -/
  maxSteps : Int := Term.defaultBound
  /-- The level from which events are shown. -/
  logLevel : LogLevel := .warning
  deriving DecidableEq

/-- Why an environment gives no settings. -/
inductive SettingsError where
  /-- The bound is no positive integer. -/
  | badSteps (text : Text)
  /-- The level is not known. -/
  | badLevel (text : Text)
  /-- The bound looks like an integer but cannot be read as one. -/
  | unreadableSteps (e : Text.NumeralError)
  deriving DecidableEq

namespace SettingsError

/-- The wording of a failure. -/
def message : SettingsError → Text
  | badSteps text => "TREEQ_MAX_STEPS must be a positive integer, got " ++ Text.quoted text
  | badLevel text => "TREEQ_LOG_LEVEL is not a logging level: " ++ Text.quoted text
  | unreadableSteps e => e.message

/-- Whether a failure is a verdict on the settings, rather than a breakdown while reading them. -/
def isVerdict : SettingsError → Bool
  | badSteps _ | badLevel _ => true
  | unreadableSteps _ => false

end SettingsError

namespace Settings

/-- The variable that holds the bound. -/
def stepsVariable : String := "TREEQ_MAX_STEPS"

/-- The variable that holds the level. -/
def levelVariable : String := "TREEQ_LOG_LEVEL"

/-- A value that is set and not empty. -/
def nonempty? (value : Option Text) : Option Text := value.filter fun text => !text.isEmpty

/-- Whether a text consists of basic digits, at least one. -/
def isPlainNumber (text : Text) : Bool := !text.isEmpty && text.toList.all Text.isBasicDigit

/-- Read the bound. -/
def readSteps (value : Option Text) : Except SettingsError Int :=
  match nonempty? value with
  | none => .ok Term.defaultBound
  | some text =>
      if isPlainNumber (Text.strip text) then
        match Text.readInt text with
        | .error e => .error (.unreadableSteps e)
        | .ok n => if 0 < n then .ok n else .error (.badSteps text)
      else .error (.badSteps text)

/-- Read the level. -/
def readLevel (value : Option Text) : Except SettingsError LogLevel :=
  match nonempty? value with
  | none => .ok .warning
  | some text =>
      match LogLevel.ofText? text with
      | some level => .ok level
      | none => .error (.badLevel text)

/-- The settings given by the values of the two variables; the bound is read first. -/
def read (steps level : Option Text) : Except SettingsError Settings := do
  let maxSteps ← readSteps steps
  let logLevel ← readLevel level
  return { maxSteps, logLevel }

end Settings

end TreeCalculus
