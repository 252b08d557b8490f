import PoolScaling.Data
import PoolScaling.Number.Decimal
import PoolScaling.Number.Order
import PoolScaling.Time.Calendar

/-! Numbers and dates of TOML documents.

Underscores may stand between digits. Whole numbers fit in 64 bits with a sign.
A decimal that is too large is refused when it is positive and becomes negative
infinity otherwise. -/
namespace PoolScaling.Toml

def isHexDigit (c : Char) : Bool := (Text.hexDigit? c).isSome

def isOctalDigit (c : Char) : Bool := '0' ≤ c && c ≤ '7'

def isBinaryDigit (c : Char) : Bool := c = '0' || c = '1'

/-- Digits with underscores between them, after a first one. An underscore has to
have digits on both sides. -/
def moreDigits? (isDigit : Char → Bool) : List Char → Option (List Char × List Char)
  | [] => some ([], [])
  | ['_'] => none
  | '_' :: c :: rest =>
    if isDigit c then (moreDigits? isDigit rest).map fun (ds, rest) => (c :: ds, rest) else none
  | c :: rest =>
    if isDigit c then (moreDigits? isDigit rest).map fun (ds, rest) => (c :: ds, rest)
    else some ([], c :: rest)

/-- Digits with underscores between them, at least one. -/
def digits? (isDigit : Char → Bool) : List Char → Option (List Char × List Char)
  | [] => none
  | c :: rest =>
    if isDigit c then (moreDigits? isDigit rest).map fun (ds, rest) => (c :: ds, rest) else none

/-- Digits without a leading zero; a zero stands alone. -/
def wholeDigits? : List Char → Option (List Char × List Char)
  | '0' :: rest => some (['0'], rest)
  | cs => digits? Char.isDigit cs

/-- A whole number in a base, after the mark of the base. -/
def inBase? (base : Nat) (isDigit : Char → Bool) (cs : List Char) : Option (Data × List Char) := do
  let (ds, rest) ← digits? isDigit cs
  let n ← ds.foldlM (fun n c => (Text.hexDigit? c).map (base * n + ·)) 0
  if n < Nat.pow 2 63 then some (.integer n, rest) else none

def exponent? : List Char → Option (Option Number.Exponent × List Char)
  | [] => some (none, [])
  | mark :: cs =>
    if mark = 'e' || mark = 'E' then do
      let (sign, cs) := match cs with
        | '+' :: cs => (some '+', cs)
        | '-' :: cs => (some '-', cs)
        | cs => (none, cs)
      let (ds, rest) ← digits? Char.isDigit cs
      some (some ⟨mark, sign, ds⟩, rest)
    else some (none, mark :: cs)

/-- A decimal after its sign. -/
def decimal? (cs : List Char) : Option (Number.Decimal × List Char) := do
  let (whole, cs) ← wholeDigits? cs
  let (point, fraction, cs) ← match cs with
    | '.' :: cs => (digits? Char.isDigit cs).map fun (ds, cs) => (true, ds, cs)
    | cs => some (false, [], cs)
  let (exponent, rest) ← exponent? cs
  some (⟨whole, point, fraction, exponent⟩, rest)

/-- A number as written. -/
def numberOf? (negative : Bool) (d : Number.Decimal) : Option Data :=
  if d.point || d.exponent.isSome then
    let x := if negative then -d.toFloat else d.toFloat
    if x == Number.infinity then none else some (.float x)
  else
    let n := Text.ofDigits d.whole
    if negative then if n ≤ Nat.pow 2 63 then some (.integer (-(n : Int))) else none
    else if n < Nat.pow 2 63 then some (.integer n)
    else none

/-- A number after its sign. -/
def unsigned? (negative : Bool) : List Char → Option (Data × List Char)
  | 'i' :: 'n' :: 'f' :: rest =>
    some (.float (if negative then -Number.infinity else Number.infinity), rest)
  | 'n' :: 'a' :: 'n' :: rest => some (.float (0.0 / 0.0), rest)
  | cs => do
    let (d, rest) ← decimal? cs
    let x ← numberOf? negative d
    some (x, rest)

def number? : List Char → Option (Data × List Char)
  | '0' :: 'x' :: rest => inBase? 16 isHexDigit rest
  | '0' :: 'o' :: rest => inBase? 8 isOctalDigit rest
  | '0' :: 'b' :: rest => inBase? 2 isBinaryDigit rest
  | '+' :: rest => unsigned? false rest
  | '-' :: rest => unsigned? true rest
  | cs => unsigned? false cs

/-! ### Dates and times -/

/-- A number of exactly two digits. -/
def twoDigits? : List Char → Option (Nat × List Char)
  | a :: b :: rest => (Text.digits? [a, b]).map fun n => (n, rest)
  | _ => none

/-- What follows a given character. -/
def after? (c : Char) : List Char → Option (List Char)
  | d :: rest => if d = c then some rest else none
  | [] => none

/-- What follows hours and minutes. -/
def minuteOfDay? (cs : List Char) : Option (List Char) := do
  let (hour, cs) ← twoDigits? cs
  let (minute, cs) ← twoDigits? (← after? ':' cs)
  if hour < 24 && minute < 60 then some cs else none

/-- What follows a time of day. -/
def timeOfDay? (cs : List Char) : Option (List Char) := do
  let (second, cs) ← twoDigits? (← after? ':' (← minuteOfDay? cs))
  if 60 < second then none
  else
    match cs with
    | '.' :: rest =>
      let after := rest.dropWhile Char.isDigit
      some (if after.length < rest.length then after else cs)
    | _ => some cs

/-- What follows an offset from universal time, which may be missing. -/
def offset? : List Char → Option (List Char)
  | 'Z' :: rest | 'z' :: rest => some rest
  | '+' :: rest | '-' :: rest => minuteOfDay? rest
  | cs => some cs

/-- What follows a calendar date. -/
def date? (cs : List Char) : Option (List Char) := do
  let year ← Text.digits? (cs.take 4)
  let (month, cs) ← twoDigits? (← after? '-' (cs.drop 4))
  let (day, cs) ← twoDigits? (← after? '-' cs)
  if 1 ≤ month && month ≤ 12 && 1 ≤ day && day ≤ Calendar.daysInMonth year month then some cs
  else none

/-- Whether hours and a colon stand here. -/
def startsTime (cs : List Char) : Bool :=
  match twoDigits? cs with
  | some (_, ':' :: _) => true
  | _ => false

/-- Whether a year and a dash stand here. -/
def startsDate (cs : List Char) : Bool :=
  (Text.digits? (cs.take 4)).isSome && cs[4]? == some '-'

/-- What follows a date, a time of day or both. -/
def moment? (cs : List Char) : Option (List Char) :=
  if startsDate cs then do
    let rest ← date? cs
    match rest with
    | mark :: time =>
      if (mark = 'T' || mark = 't' || mark = ' ') && startsTime time then
        offset? (← timeOfDay? time)
      else some rest
    | [] => some []
  else if startsTime cs then timeOfDay? cs
  else none

/-- A date, to a reader of records: a table with one entry that no record has. -/
def momentData : Data := .table [("$moment", .other)]

end PoolScaling.Toml
