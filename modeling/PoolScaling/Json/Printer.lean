import PoolScaling.Data
import PoolScaling.Number.Layout

/-! Writing JSON.

Numbers are written with a point or an exponent when they are doubles and
without when they are whole. NaN and the infinities have no JSON form and are
written as null. -/
namespace PoolScaling.Json

/-- Doubles from 1e-5 up to below 1e16 are written without an exponent. -/
def numberLayout : Number.Layout where
  positional := some (-5, 16)
  wholeSuffix := ".0"
  plus := "+"
  nan := "null"
  infinity := "null"
  tie := .even

def writeNumber (x : Float) : String :=
  if x.isFinite then numberLayout.write x else "null"

def hexDigit (n : Nat) : Char := if n < 10 then Char.ofNat (48 + n) else Char.ofNat (87 + n)

/-- Escapes quotes, backslashes and control characters. -/
def escape (c : Char) : List Char :=
  match c with
  | '"' => ['\\', '"']
  | '\\' => ['\\', '\\']
  | '\x08' => ['\\', 'b']
  | '\x0c' => ['\\', 'f']
  | '\n' => ['\\', 'n']
  | '\r' => ['\\', 'r']
  | '\t' => ['\\', 't']
  | _ =>
    if c.toNat < 0x20 then ['\\', 'u', '0', '0', hexDigit (c.toNat / 16), hexDigit (c.toNat % 16)]
    else [c]

def writeText (s : String) : String := "\"" ++ String.ofList (s.toList.flatMap escape) ++ "\""

/-- How items are set apart: on one line, or each on a line of its own. -/
inductive Style where
  | compact
  | pretty
  deriving Repr, DecidableEq

/-- The break before an item `depth` levels deep. -/
def Style.newline (style : Style) (depth : Nat) : String :=
  match style with
  | compact => ""
  | pretty => "\n" ++ String.ofList (List.replicate (2 * depth) ' ')

def Style.colon : Style → String
  | compact => ":"
  | pretty => ": "

mutual

/-- The text of a value `depth` levels deep. -/
def writeAt (style : Style) (depth : Nat) : Data → String
  | .null | .other => "null"
  | .bool b => if b then "true" else "false"
  | .integer n => toString n
  | .float x => writeNumber x
  | .text s => writeText s
  | .list [] => "[]"
  | .list (item :: items) =>
    "[" ++ style.newline (depth + 1) ++ writeAt style (depth + 1) item
      ++ writeItems style (depth + 1) items ++ style.newline depth ++ "]"
  | .table [] => "\x7b\x7d"
  | .table ((key, value) :: entries) =>
    "\x7b" ++ style.newline (depth + 1) ++ writeText key ++ style.colon
      ++ writeAt style (depth + 1) value ++ writeEntries style (depth + 1) entries
      ++ style.newline depth ++ "\x7d"

def writeItems (style : Style) (depth : Nat) : List Data → String
  | [] => ""
  | item :: items =>
    "," ++ style.newline depth ++ writeAt style depth item ++ writeItems style depth items

def writeEntries (style : Style) (depth : Nat) : List (String × Data) → String
  | [] => ""
  | (key, value) :: entries =>
    "," ++ style.newline depth ++ writeText key ++ style.colon ++ writeAt style depth value
      ++ writeEntries style depth entries

end

def write (style : Style) (d : Data) : String := writeAt style 0 d

end PoolScaling.Json
