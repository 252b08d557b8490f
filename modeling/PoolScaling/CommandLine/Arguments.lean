import PoolScaling.Forecast
import PoolScaling.Text.Digits

/-! Arguments of the command line.

Options have a long name and some a letter. A value is attached to its option or
is the next argument, which then does not start with a dash. Arguments are read
from left to right, and the first that is wrong or asks for help or the version
ends the reading. -/
namespace PoolScaling.CommandLine

inductive Command where
  /-- Checks a configuration. -/
  | validate (config : String)
  /-- Runs one decision over a file of forecasts. -/
  | decide (config forecasts : String) (pool : Option PoolSize)
  deriving Repr, DecidableEq

/-- What ends the reading of arguments before there is a command. -/
inductive Stop where
  | help
  /-- Asks for the version of the program or of a command. -/
  | version (name : String)
  | misuse
  deriving Repr, DecidableEq

/-- Options that take a value. -/
inductive Setting where
  | config
  | forecasts
  | desired
  | active
  deriving Repr, DecidableEq

namespace Setting

def name : Setting → String
  | config => "config"
  | forecasts => "forecasts"
  | desired => "desired"
  | active => "active"

def letter? : Setting → Option Char
  | config => some 'c'
  | forecasts => some 'f'
  | desired => none
  | active => none

end Setting

/-- A size in 32 bits, perhaps with a sign; a minus sign leaves only zero. -/
def size? (s : String) : Option UInt32 :=
  let (negative, digits) := match s.toList with
    | '-' :: cs => (true, cs)
    | '+' :: cs => (false, cs)
    | cs => (false, cs)
  (Text.digits? digits).bind fun n =>
    if n < Nat.pow 2 32 && (!negative || n = 0) then some n.toUInt32 else none

/-- Settings given so far. -/
abbrev Given := List (Setting × String)

/-- Adds a setting; none may be given twice, and sizes have to be numbers. -/
def give (given : Given) (s : Setting) (value : String) : Except Stop Given :=
  if (given.lookup s).isSome then .error .misuse
  else if (s = .desired ∨ s = .active) ∧ (size? value).isNone then .error .misuse
  else .ok (given ++ [(s, value)])

/-- What an argument says. -/
inductive Word where
  /-- Two dashes, after which nothing is an option. -/
  | separator
  | help
  | version
  | attached (s : Setting) (value : String)
  /-- A setting whose value is the next argument. -/
  | setting (s : Setting)
  | wrong

/-- Reads an argument after two dashes. -/
def longWord (settings : List Setting) (cs : List Char) : Word :=
  let name := String.ofList (cs.takeWhile (· ≠ '='))
  let value := match cs.dropWhile (· ≠ '=') with
    | _ :: value => some (String.ofList value)
    | [] => none
  match settings.find? fun s => s.name == name, value with
  | some s, some value => .attached s value
  | some s, none => .setting s
  | none, some _ => .wrong
  | none, none => if name = "help" then .help else if name = "version" then .version else .wrong

/-- Reads an argument after one dash; an equals sign may stand before the value. -/
def shortWord (settings : List Setting) : List Char → Word
  | 'h' :: _ => .help
  | 'V' :: _ => .version
  | c :: cs =>
    match settings.find? fun s => s.letter? == some c, cs with
    | some s, [] => .setting s
    | some s, '=' :: value => .attached s (String.ofList value)
    | some s, value => .attached s (String.ofList value)
    | none, _ => .wrong
  | [] => .wrong

def word (settings : List Setting) (argument : String) : Word :=
  match argument.toList with
  | ['-', '-'] => .separator
  | '-' :: '-' :: cs => longWord settings cs
  | '-' :: cs => shortWord settings cs
  | _ => .wrong

/-- Whether an argument can be the value of the option before it. -/
def isValue (argument : String) : Bool :=
  match argument.toList with
  | '-' :: _ :: _ => false
  | _ => true

/-- The settings that the arguments of the command `name` give. -/
def settings (name : String) (known : List Setting) (given : Given) :
    List String → Except Stop Given
  | [] => .ok given
  | argument :: rest =>
    match word known argument with
    | .separator => if rest.isEmpty then .ok given else .error .misuse
    | .help => .error .help
    | .version => .error (.version name)
    | .wrong => .error .misuse
    | .attached s value => do settings name known (← give given s value) rest
    | .setting s =>
      match rest with
      | value :: rest =>
        if isValue value then do settings name known (← give given s value) rest
        else .error .misuse
      | [] => .error .misuse

def defaultConfig : String := "capgrid.toml"

def validateOf (arguments : List String) : Except Stop Command := do
  let given ← settings "capgrid-validate" [.config] [] arguments
  return .validate ((given.lookup .config).getD defaultConfig)

/-- The active size is the desired one unless it is given too. -/
def decideOf (arguments : List String) : Except Stop Command := do
  let given ← settings "capgrid-decide" [.config, .forecasts, .desired, .active] [] arguments
  let config := (given.lookup .config).getD defaultConfig
  let desired := (given.lookup .desired).bind size?
  let active := (given.lookup .active).bind size?
  match given.lookup .forecasts, desired, active with
  | none, _, _ | some _, none, some _ => .error .misuse
  | some forecasts, none, none => .ok (.decide config forecasts none)
  | some forecasts, some d, active => .ok (.decide config forecasts (some ⟨d, active.getD d⟩))

/-- Whether the arguments after `help` name a command. -/
def isTopic (arguments : List String) : Bool :=
  [[], ["validate"], ["decide"], ["help"]].contains arguments

/-- Reads the arguments of the program. -/
def parse : List String → Except Stop Command
  | [] => .error .misuse
  | argument :: rest =>
    if argument = "validate" then validateOf rest
    else if argument = "decide" then decideOf rest
    else if argument = "help" then .error (if isTopic rest then .help else .misuse)
    else
      match word [] argument with
      | .help => .error .help
      | .version => .error (.version "capgrid")
      | _ => .error .misuse

end PoolScaling.CommandLine
