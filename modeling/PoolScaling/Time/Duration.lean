import PoolScaling.Text.Blank
import PoolScaling.Text.Digits

/-! Spans of time.

A duration is a whole number of nanoseconds. Its text is a number with a unit:
`500ms`, `30s`, `10m`, `1h`, and a bare number counts seconds. The text keeps
whole milliseconds. -/
namespace PoolScaling

structure Duration where
  nanos : Nat
  deriving Repr, DecidableEq

namespace Duration

def zero : Duration := ⟨0⟩

def ofMillis (ms : Nat) : Duration := ⟨ms * 1000000⟩

def ofSeconds (s : Nat) : Duration := ⟨s * 1000000000⟩

/-- Whole seconds. -/
def seconds (d : Duration) : Nat := d.nanos / 1000000000

/-- Nanoseconds past the last whole second. -/
def subsecond (d : Duration) : Nat := d.nanos % 1000000000

/-- Whole milliseconds. -/
def millis (d : Duration) : Nat := d.nanos / 1000000

/-- Splits a unit off the end of a text: the number before it and the unit's
milliseconds. Milliseconds come first because their unit ends in that of seconds. -/
def splitUnit (cs : List Char) : List Char × Nat :=
  match Text.dropEnding? ['m', 's'] cs with
  | some number => (number, 1)
  | none =>
    match Text.dropEnding? ['s'] cs with
    | some number => (number, 1000)
    | none =>
      match Text.dropEnding? ['m'] cs with
      | some number => (number, 60000)
      | none =>
        match Text.dropEnding? ['h'] cs with
        | some number => (number, 3600000)
        | none => (cs, 1000)

/-- Reads a duration. Both the number and its milliseconds have to fit in 64 bits. -/
def ofText? (s : String) : Option Duration :=
  let (number, scale) := splitUnit (Text.trimEnd (Text.trimStart s.toList))
  (Text.natBelow? (Nat.pow 2 64) (Text.trimEnd (Text.trimStart number))).bind fun amount =>
    if amount * scale < Nat.pow 2 64 then some (ofMillis (amount * scale)) else none

/-- Writes the whole milliseconds of a duration in the largest unit that divides them. -/
def toText (d : Duration) : String :=
  let ms := d.millis
  if ms = 0 then "0s"
  else if ms % 3600000 = 0 then toString (ms / 3600000) ++ "h"
  else if ms % 60000 = 0 then toString (ms / 60000) ++ "m"
  else if ms % 1000 = 0 then toString (ms / 1000) ++ "s"
  else toString ms ++ "ms"

/-- A whole number and a fraction of `places` digits, without trailing zeros. -/
def fractional (whole fraction places : Nat) : String :=
  let digits := (toString (Nat.pow 10 places + fraction)).toList.drop 1
  let kept := (digits.reverse.dropWhile (· = '0')).reverse
  toString whole ++ if kept.isEmpty then "" else "." ++ String.ofList kept

/-- Writes a duration exactly, in the largest unit of which it has a whole one. -/
def describe (d : Duration) : String :=
  if 1000000000 ≤ d.nanos then fractional d.seconds d.subsecond 9 ++ "s"
  else if 1000000 ≤ d.nanos then fractional (d.nanos / 1000000) (d.nanos % 1000000) 6 ++ "ms"
  else if 1000 ≤ d.nanos then fractional (d.nanos / 1000) (d.nanos % 1000) 3 ++ "µs"
  else toString d.nanos ++ "ns"

end Duration

end PoolScaling
