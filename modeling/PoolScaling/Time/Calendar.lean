import PoolScaling.Time.Instant

/-! Calendar dates and their internet form.

Dates are those of the proleptic Gregorian calendar. Days are counted from the
first of January 1970; a year is taken to begin in March, which puts the leap
day at its end. Times are written as RFC 3339 has them and read a little more
freely: blanks may stand around the parts of a date, the zone may be `UTC`, and
the colon of an offset may be missing. -/
namespace PoolScaling.Calendar

structure Date where
  year : Int
  month : Nat
  day : Nat
  deriving Repr, DecidableEq

def isLeapYear (y : Int) : Bool := y % 4 == 0 && (y % 100 != 0 || y % 400 == 0)

def daysInMonth (y : Int) (m : Nat) : Nat :=
  if m = 2 then (if isLeapYear y then 29 else 28)
  else if m = 4 ∨ m = 6 ∨ m = 9 ∨ m = 11 then 30
  else 31

/-- Days from the start of 1970 to a date. -/
def dayNumber (d : Date) : Int :=
  let y := if d.month ≤ 2 then d.year - 1 else d.year
  let era := y.fdiv 400
  let yearOfEra := y - era * 400
  let monthFromMarch : Int := (d.month + 9) % 12
  let dayOfYear := (153 * monthFromMarch + 2) / 5 + d.day - 1
  let dayOfEra := yearOfEra * 365 + yearOfEra / 4 - yearOfEra / 100 + dayOfYear
  era * 146097 + dayOfEra - 719468

/-- The date a number of days from the start of 1970. -/
def dateOf (days : Int) : Date :=
  let z := days + 719468
  let era := z.fdiv 146097
  let dayOfEra := z - era * 146097
  let yearOfEra := (dayOfEra - dayOfEra / 1460 + dayOfEra / 36524 - dayOfEra / 146096) / 365
  let dayOfYear := dayOfEra - (365 * yearOfEra + yearOfEra / 4 - yearOfEra / 100)
  let monthFromMarch := (5 * dayOfYear + 2) / 153
  let day := dayOfYear - (153 * monthFromMarch + 2) / 5 + 1
  let month := if monthFromMarch < 10 then monthFromMarch + 3 else monthFromMarch - 9
  let year := yearOfEra + era * 400 + if month ≤ 2 then 1 else 0
  ⟨year, month.toNat, day.toNat⟩

/-- The digits of `n`, with zeros before them up to `width`. -/
def padded (width n : Nat) : String :=
  let digits := (toString n).toList
  String.ofList (List.replicate (width - digits.length) '0' ++ digits)

/-- Four digits, or a sign and at least four outside the years 0 to 9999. -/
def writeYear (y : Int) : String :=
  if 0 ≤ y && y ≤ 9999 then padded 4 y.toNat
  else (if y < 0 then "-" else "+") ++ padded 4 y.natAbs

/-- A fraction of a second in 0, 3, 6 or 9 digits, as few as are exact. -/
def writeFraction (nanos : Nat) : String :=
  if nanos = 0 then ""
  else if nanos % 1000000 = 0 then "." ++ padded 3 (nanos / 1000000)
  else if nanos % 1000 = 0 then "." ++ padded 6 (nanos / 1000)
  else "." ++ padded 9 nanos

/-- Writes an instant of universal time, with `zone` after it. -/
def write (t : Instant) (zone : String) : String :=
  let days := t.seconds.fdiv 86400
  let second := (t.seconds - days * 86400).toNat
  let d := dateOf days
  let clock := padded 2 (second / 3600) ++ ":" ++ padded 2 (second / 60 % 60) ++ ":"
    ++ padded 2 (second % 60 + if t.leap then 1 else 0)
  writeYear d.year ++ "-" ++ padded 2 d.month ++ "-" ++ padded 2 d.day ++ "T" ++ clock
    ++ writeFraction (t.subsecond % 1000000000) ++ zone

/-! ### Reading -/

/-- Up to `width` digits, at least one. -/
def number? (width : Nat) (cs : List Char) : Option (Nat × List Char) :=
  let digits := (cs.take width).takeWhile Char.isDigit
  (Text.digits? digits).map fun n => (n, cs.drop digits.length)

/-- A year: four digits at most, or any number of them after a sign. -/
def year? : List Char → Option (Int × List Char)
  | '-' :: cs => (number? cs.length cs).map fun (n, rest) => (-(n : Int), rest)
  | '+' :: cs => (number? cs.length cs).map fun (n, rest) => ((n : Int), rest)
  | cs => (number? 4 cs).map fun (n, rest) => ((n : Int), rest)

/-- A two-digit part after a separator; blanks may stand on both sides. -/
def part? (separator : Char) (cs : List Char) : Option (Nat × List Char) :=
  match Text.trimStart cs with
  | c :: rest => if c = separator then number? 2 (Text.trimStart rest) else none
  | [] => none

/-- A fraction of a second in nanoseconds; digits after the ninth count for nothing. -/
def fraction? : List Char → Option (Nat × List Char)
  | '.' :: cs =>
    (number? 9 cs).map fun (n, rest) =>
      (n * Nat.pow 10 (9 - (cs.length - rest.length)), rest.dropWhile Char.isDigit)
  | cs => some (0, cs)

/-- Minutes east of universal time. -/
def offset? (cs : List Char) : Option (Int × List Char) :=
  match cs with
  | 'Z' :: rest | 'z' :: rest => some (0, rest)
  | sign :: h₁ :: h₂ :: rest =>
    let zone := [sign, h₁, h₂].map Char.toUpper
    if zone = ['U', 'T', 'C'] then some (0, rest)
    else if sign = '+' ∨ sign = '-' ∨ sign = '−' then do
      let hours ← Text.digits? [h₁, h₂]
      match rest.dropWhile fun c => c = ':' ∨ Text.isBlank c with
      | m₁ :: m₂ :: rest =>
        let minutes ← Text.digits? [m₁, m₂]
        if minutes < 60 then
          let size : Int := hours * 60 + minutes
          some (if sign = '+' then size else -size, rest)
        else none
      | _ => none
    else none
  | _ => none

/-- Years of instants. -/
def yearInRange (y : Int) : Bool := -262143 ≤ y && y ≤ 262142

/-- Reads an instant. The sixtieth second of a minute is a leap second. Both the date
as written and the instant have to be in range. -/
def read? (text : String) : Option Instant := do
  let (year, cs) ← year? (Text.trimStart text.toList)
  let (month, cs) ← part? '-' cs
  let (day, cs) ← part? '-' cs
  let cs ← match cs with
    | 'T' :: cs | 't' :: cs | ' ' :: cs => some cs
    | _ => none
  let (hour, cs) ← number? 2 (Text.trimStart cs)
  let (minute, cs) ← part? ':' cs
  let (second, cs) ← part? ':' cs
  let (nanos, cs) ← fraction? cs
  let (offset, cs) ← offset? (Text.trimStart cs)
  if (Text.trimStart cs).isEmpty && yearInRange year && 1 ≤ month && month ≤ 12
      && 1 ≤ day && day ≤ daysInMonth year month
      && hour < 24 && minute < 60 && second ≤ 60 && offset.natAbs < 1440 then
    let leap := second == 60
    let clock : Int := hour * 3600 + minute * 60 + (if leap then 59 else second)
    let seconds := dayNumber ⟨year, month, day⟩ * 86400 + clock - offset * 60
    let t : Instant := { nanos := seconds * 1000000000 + nanos, leap := leap }
    if t.isInRange then some t else none
  else none

end PoolScaling.Calendar
