import PoolScaling.CommandLine.Arguments
import PoolScaling.Config.File
import PoolScaling.Report

/-! The command line.

`validate` loads a configuration and checks every section. `decide` runs one
decision over a file of forecasts and prints a report. An error is printed with
the error that caused it. -/
namespace PoolScaling.CommandLine

/-- Why a command fails. -/
inductive CommandError where
  | unloadable (path : String) (reason : LoadError)
  | invalidFile (path : String) (reason : ConfigError)
  | unreadable (path : String)
  | badForecasts (path : String)
  | invalid (reason : ConfigError)
  | decision (e : DecisionError)

namespace CommandError

def message : CommandError → String
  | unloadable path _ => "failed to load " ++ path
  | invalidFile path _ => "invalid configuration in " ++ path
  | unreadable path => "failed to read " ++ path
  | badForecasts path => "invalid forecasts in " ++ path
  | invalid _ => "invalid configuration"
  | decision e => e.message

def cause : CommandError → Option String
  | unloadable _ reason => some reason.message
  | invalidFile _ reason => some reason.message
  | unreadable _ => some "the file cannot be read"
  | badForecasts _ => some "the file holds no forecasts in JSON"
  | invalid reason => some reason.message
  | decision e => e.cause

/-- The message and its cause on one line. -/
def summary (e : CommandError) : String :=
  match e.cause with
  | none => e.message
  | some cause => e.message ++ ": " ++ cause

/-- Sets every line of a text four columns in. -/
def indented (text : String) : String :=
  "\n".intercalate ((text.splitOn "\n").map fun line => "    " ++ line)

def report (e : CommandError) : String :=
  let cause := match e.cause with
    | none => ""
    | some cause => "\n\nCaused by:\n" ++ indented cause
  "Error: " ++ e.message ++ cause ++ "\n"

end CommandError

/-- Loads a configuration and checks every section of it. -/
def check (read : String → Option String) (path : String) : Except CommandError Config :=
  match Config.load read path with
  | .error e => .error (.unloadable path e)
  | .ok c =>
    match Pipeline.validate c with
    | .error e => .error (.invalidFile path e)
    | .ok () => .ok c

/-- What `validate` prints about a valid configuration. -/
def description (path : String) (c : Config) : String :=
  "✓ " ++ path ++ " is valid\n"
    ++ "  expression: " ++ c.expression ++ "\n"
    ++ "  capacity mappings: " ++ toString c.capacity.length ++ "\n"
    ++ "  delta tolerance: " ++ Expr.writeNumber c.damping.tolerance ++ "\n"
    ++ "  grace period: " ++ c.damping.grace.toText ++ "\n"

/-- Decides once, with a configuration and forecasts that are at hand. -/
def report (stopwatch : Expr.Stopwatch) (c : Config) (forecasts : Dictionary (Option Forecast))
    (pool : Option PoolSize) (now : Instant) : Except (Failure CommandError) Report :=
  (Report.make stopwatch c forecasts pool now).mapError <| Failure.map fun
    | .config e => .invalid e
    | .decision e => .decision e

/-- What a command prints. -/
def Command.output (stopwatch : Expr.Stopwatch) (read : String → Option String) (now : Instant) :
    Command → Except (Failure CommandError) String
  | .validate path =>
    match check read path with
    | .error e => .error (.error e)
    | .ok c => .ok (description path c)
  | .decide path forecastsPath pool =>
    match Config.load read path with
    | .error e => .error (.error (.unloadable path e))
    | .ok c =>
      match read forecastsPath with
      | none => .error (.error (.unreadable forecastsPath))
      | some text =>
        match readForecasts? text now with
        | none => .error (.error (.badForecasts forecastsPath))
        | some forecasts => (report stopwatch c forecasts pool now).map fun r => r.toJson ++ "\n"

/-- The files that a command reads. -/
def Command.paths : Command → List String
  | .validate path => [path]
  | .decide path forecastsPath _ => [path, forecastsPath]

/-! ### The program -/

/-- What a run of the program leaves behind. -/
structure Outcome where
  code : UInt32
  output : String
  errors : String
  deriving Repr, DecidableEq

def usage : String :=
  "Usage: capgrid <COMMAND>\n\n"
    ++ "Commands:\n"
    ++ "  validate  Check a configuration file without applying it\n"
    ++ "  decide    Run one decision cycle over forecasts read from a JSON file\n"
    ++ "  help      Print this message\n"

/-- Runs the command that the arguments ask for. -/
def run (stopwatch : Expr.Stopwatch) (read : String → Option String) (now : Instant)
    (arguments : List String) : Outcome :=
  match parse arguments with
  | .error .help => ⟨0, usage, ""⟩
  | .error (.version name) => ⟨0, name ++ " 0.1.0\n", ""⟩
  | .error .misuse => ⟨2, "", usage⟩
  | .ok command =>
    match command.output stopwatch read now with
    | .ok output => ⟨0, output, ""⟩
    | .error (.error e) => ⟨1, "", e.report⟩
    | .error .crash => ⟨101, "", "the evaluation crashed\n"⟩

end PoolScaling.CommandLine
