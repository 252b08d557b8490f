import PoolScaling.Data
import PoolScaling.Number.Decimal

/-! Reading JSON.

A text is one value with blanks around it. Whole numbers that fit in 64 bits
stay whole. Any other number is its first digits, as many as fit in 64 bits, as
a double that is multiplied or divided once by a power of ten; this is not
always the nearest double. A number too large for a double, or a string with
half of a surrogate pair, is kept as a value that no field takes. -/
namespace PoolScaling.Json

def isBlank (c : Char) : Bool := c = ' ' || c = '\n' || c = '\t' || c = '\r'

def skipBlanks (cs : List Char) : List Char := cs.dropWhile isBlank

/-! ### Numbers -/

def wordLimit : Nat := Nat.pow 2 64

/-- Adds digits to a significand while it fits in 64 bits; returns it with the
number of digits taken. -/
def takeDigits (significand : Nat) : List Char → Nat × Nat
  | [] => (significand, 0)
  | c :: cs =>
    let next := 10 * significand + (c.toNat - '0'.toNat)
    if next < wordLimit then
      let (s, n) := takeDigits next cs
      (s, n + 1)
    else (significand, 0)

/-- Scales `f` by a power of ten, in steps of 308 on the way down. None when it
grows too large. -/
def scale (f : Float) : Nat → Int → Option Float
  | 0, _ => some f
  | steps + 1, e =>
    if e.natAbs ≤ 308 then
      if 0 ≤ e then
        let g := f * Number.ofDecimal 1 e
        if g.isFinite then some g else none
      else some (f / Number.ofDecimal 1 (-e))
    else if f == 0.0 then some f
    else if 0 ≤ e then none
    else scale (f / Number.ofDecimal 1 308) steps (e + 308)

/-- The largest exponent that is read as such. -/
def exponentLimit : Nat := Nat.pow 2 31 - 1

/-- The value of an unsigned number that is not whole or does not fit. -/
def floatOf (d : Number.Decimal) : Option Float :=
  let (s, taken) := takeDigits 0 d.whole
  let (s, after) := takeDigits s d.fraction
  let shift : Int := (d.whole.length - taken : Nat) - after
  match d.exponent with
  | none => scale (Number.ofDecimal s 0) 4 shift
  | some e =>
    if e.value.natAbs ≤ exponentLimit then scale (Number.ofDecimal s 0) 4 (shift + e.value)
    else if s ≠ 0 ∧ 0 < e.value then none
    else some 0.0

/-- The value of a number as written. -/
def number (negative : Bool) (d : Number.Decimal) : Data :=
  let n := Text.ofDigits d.whole
  let plain := !d.point && d.exponent.isNone
  if plain && !negative && n < wordLimit then .integer n
  else if plain && negative && 0 < n && n ≤ Nat.pow 2 63 then .integer (-(n : Int))
  else
    match floatOf d with
    | some x => .float (if negative then -x else x)
    | none => .other

/-- Whether a decimal is written as JSON has it: no leading zeros, and digits on both
sides of the point. -/
def isPlainDecimal (d : Number.Decimal) : Bool :=
  !d.whole.isEmpty && (d.whole.head? != some '0' || d.whole.length = 1)
    && (!d.point || !d.fraction.isEmpty)

/-- A number; a mark of an exponent has to have digits. -/
def number? (cs : List Char) : Option (Data × List Char) :=
  let (negative, cs) := match cs with
    | '-' :: rest => (true, rest)
    | _ => (false, cs)
  let (d, rest) := Number.Decimal.scan cs
  if isPlainDecimal d && rest.head? != some 'e' && rest.head? != some 'E' then
    some (number negative d, rest)
  else none

/-! ### Strings -/

/-- The characters that a backslash with one letter stands for. -/
def escaped? (c : Char) : Option Char :=
  match c with
  | '"' => some '"'
  | '\\' => some '\\'
  | '/' => some '/'
  | 'b' => some '\x08'
  | 'f' => some '\x0c'
  | 'n' => some '\n'
  | 'r' => some '\r'
  | 't' => some '\t'
  | _ => none

/-- The inside of a string as 16-bit units of its escapes and plain characters. -/
inductive Piece where
  | char (c : Char)
  | unit (n : Nat)

/-- Reads pieces up to the closing quote. -/
def pieces? : List Char → Option (List Piece × List Char)
  | [] => none
  | '"' :: rest => some ([], rest)
  | '\\' :: 'u' :: a :: b :: c :: d :: rest => do
    let n ← Text.hex? [a, b, c, d]
    let (ps, rest) ← pieces? rest
    some (.unit n :: ps, rest)
  | '\\' :: c :: rest => do
    let e ← escaped? c
    let (ps, rest) ← pieces? rest
    some (.char e :: ps, rest)
  | c :: rest =>
    if c.toNat < 0x20 then none
    else do
      let (ps, rest) ← pieces? rest
      some (.char c :: ps, rest)

def isHigh (n : Nat) : Bool := 0xD800 ≤ n && n < 0xDC00

def isLow (n : Nat) : Bool := 0xDC00 ≤ n && n < 0xE000

/-- Joins surrogate pairs; none when one half stands alone. -/
def join? : List Piece → Option (List Char)
  | [] => some []
  | .char c :: ps => (join? ps).map (c :: ·)
  | .unit n :: ps =>
    if isHigh n then
      match ps with
      | .unit m :: ps =>
        if isLow m then
          (join? ps).map (Char.ofNat (0x10000 + (n - 0xD800) * 0x400 + (m - 0xDC00)) :: ·)
        else none
      | _ => none
    else if isLow n then none
    else (join? ps).map (Char.ofNat n :: ·)

/-! ### Values -/

/-- Drops the characters of a word. -/
def word? (word : List Char) (cs : List Char) : Option (List Char) :=
  if word.isPrefixOf cs then some (cs.drop word.length) else none

/-- The entries of a table whose keys are all texts. -/
def named? : List (Option String × Data) → Option (List (String × Data))
  | [] => some []
  | (none, _) :: _ => none
  | (some key, d) :: rest => (named? rest).map ((key, d) :: ·)

mutual

/-- A value at the start of a text without blanks before it. A list or table costs
two rounds and has two brackets, and each further item costs one and has a comma,
so as many rounds as there are characters suffice. -/
def value? : Nat → List Char → Option (Data × List Char)
  | 0, _ => none
  | rounds + 1, cs =>
    match cs with
    | '"' :: rest => do
      let (ps, rest) ← pieces? rest
      match join? ps with
      | some s => some (.text (String.ofList s), rest)
      | none => some (.other, rest)
    | '[' :: rest =>
      match skipBlanks rest with
      | ']' :: rest => some (.list [], rest)
      | rest => do
        let (items, rest) ← items? rounds rest
        some (.list items, rest)
    | '{' :: rest =>
      match skipBlanks rest with
      | '}' :: rest => some (.table [], rest)
      | rest => do
        let (entries, rest) ← entries? rounds rest
        some ((named? entries).elim .other .table, rest)
    | 't' :: rest => (word? ['r', 'u', 'e'] rest).map fun rest => (.bool true, rest)
    | 'f' :: rest => (word? ['a', 'l', 's', 'e'] rest).map fun rest => (.bool false, rest)
    | 'n' :: rest => (word? ['u', 'l', 'l'] rest).map fun rest => (.null, rest)
    | _ => number? cs

/-- The items of a list from its first one to the closing bracket. -/
def items? : Nat → List Char → Option (List Data × List Char)
  | 0, _ => none
  | rounds + 1, cs => do
    let (item, rest) ← value? rounds cs
    match skipBlanks rest with
    | ',' :: rest =>
      let (items, rest) ← items? rounds (skipBlanks rest)
      some (item :: items, rest)
    | ']' :: rest => some ([item], rest)
    | _ => none

/-- The entries of a table from its first one to the closing brace. -/
def entries? : Nat → List Char → Option (List (Option String × Data) × List Char)
  | 0, _ => none
  | rounds + 1, cs =>
    match cs with
    | '"' :: rest => do
      let (ps, rest) ← pieces? rest
      let key := (join? ps).map String.ofList
      match skipBlanks rest with
      | ':' :: rest =>
        let (value, rest) ← value? rounds (skipBlanks rest)
        match skipBlanks rest with
        | ',' :: rest =>
          let (entries, rest) ← entries? rounds (skipBlanks rest)
          some ((key, value) :: entries, rest)
        | '}' :: rest => some ([(key, value)], rest)
        | _ => none
      | _ => none
    | _ => none

end

/-- Reads a whole text as one value. -/
def read? (text : String) : Option Data := do
  let cs := skipBlanks text.toList
  let (value, rest) ← value? (cs.length + 1) cs
  if (skipBlanks rest).isEmpty then some value else none

end PoolScaling.Json
