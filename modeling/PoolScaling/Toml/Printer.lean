import PoolScaling.Number.Layout

/-! Writing TOML.

A text is written in the first of its forms that needs no escape: between double
quotes, between single quotes, between three double quotes, between three single
quotes. When every form needs one it stands between double quotes, three of them
if it has several lines. -/
namespace PoolScaling.Toml

/-- Numbers are written without an exponent, and whole ones with a point. -/
def numberLayout : Number.Layout where
  positional := none
  wholeSuffix := ".0"
  plus := ""
  nan := "nan"
  infinity := "inf"
  tie := .up

def writeNumber (x : Float) : String := numberLayout.write x

/-! ### The form of a text -/

/-- Control characters that no form but the escaping ones can hold. -/
def needsCode (c : Char) : Bool := (c.toNat < 0x20 && c ≠ '\t' && c ≠ '\n') || c.toNat = 0x7F

/-- The longest run of a character, when `current` of it stand before. -/
def longestRun (c : Char) (current : Nat) : List Char → Nat
  | [] => current
  | d :: cs => if d = c then longestRun c (current + 1) cs else max current (longestRun c 0 cs)

inductive Form where
  | quoted
  | literal
  | longQuoted
  | longLiteral
  deriving Repr, DecidableEq

def Form.of (cs : List Char) : Form :=
  let codes := cs.any needsCode
  let lines := cs.contains '\n'
  let escapes := codes || cs.contains '\\'
  let singles := longestRun '\'' 0 cs
  let doubles := longestRun '"' 0 cs
  if !escapes && doubles = 0 && !lines then .quoted
  else if !codes && singles = 0 && !lines then .literal
  else if !escapes && doubles ≤ 2 then .longQuoted
  else if !codes && singles ≤ 2 then .longLiteral
  else if lines then .longQuoted
  else .quoted

/-! ### Escapes -/

def hexDigit (n : Nat) : Char := if n < 10 then Char.ofNat (48 + n) else Char.ofNat (55 + n)

/-- A character other than a double quote. Line breaks stay if `long`. -/
def escape (long : Bool) (c : Char) : List Char :=
  match c with
  | '\x08' => ['\\', 'b']
  | '\t' => ['\\', 't']
  | '\n' => if long then ['\n'] else ['\\', 'n']
  | '\x0c' => ['\\', 'f']
  | '\r' => ['\\', 'r']
  | '\\' => ['\\', '\\']
  | _ =>
    if needsCode c then ['\\', 'u', '0', '0', hexDigit (c.toNat / 16), hexDigit (c.toNat % 16)]
    else [c]

/-- Escapes a text of which `run` double quotes stand directly before. In the long form
every third one of a run is escaped, in the other every one. -/
def escapeAll (long : Bool) (run : Nat) : List Char → List Char
  | [] => []
  | c :: cs =>
    if c = '"' then
      if (if long then 2 else 0) ≤ run then '\\' :: '"' :: escapeAll long 0 cs
      else '"' :: escapeAll long (run + 1) cs
    else escape long c ++ escapeAll long 0 cs

/-- A text of several lines begins on the line after its opening quotes. -/
def writeText (s : String) : String :=
  let cs := s.toList
  let opening := if cs.contains '\n' then "\n" else ""
  match Form.of cs with
  | .quoted => "\"" ++ String.ofList (escapeAll false 0 cs) ++ "\""
  | .literal => "'" ++ s ++ "'"
  | .longQuoted => "\"\"\"" ++ opening ++ String.ofList (escapeAll true 0 cs) ++ "\"\"\""
  | .longLiteral => "'''" ++ opening ++ s ++ "'''"

def writeEntry (key value : String) : String := key ++ " = " ++ value ++ "\n"

end PoolScaling.Toml
