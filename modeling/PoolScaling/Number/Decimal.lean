import PoolScaling.Number.Parts
import PoolScaling.Text.Digits

/-! Reading decimals.

`ofDecimal n e` is the double nearest to `n * 10 ^ e`. Numbers whose size is
plainly beyond the range of doubles are decided by their decimal exponent alone,
so a huge exponent costs nothing.

`Decimal` is the written form: digits, perhaps a point and more digits, perhaps
an exponent. Only the first few digits of a long exponent are read
(`Exponent.start`). It decides the number by itself then, unless the decimal has
tens of thousands of digits to weigh against it. -/
namespace PoolScaling.Number

/-- The number of decimal digits of `n`; zero has none. -/
def digitCount (n : Nat) : Nat := if n = 0 then 0 else (Nat.toDigits 10 n).length

/-- The double nearest to `n * 10 ^ e`. -/
def ofDecimal (n : Nat) (e : Int) : Float :=
  let top := (digitCount n : Int) + e
  if n = 0 ∨ top < -400 then 0.0
  else if 400 < top then 1.0 / 0.0
  else
    match e with
    | .ofNat k => Float.ofScientific n false k
    | .negSucc k => Float.ofScientific n true (k + 1)

/-- An exponent as written: its mark, perhaps a sign, its digits. -/
structure Exponent where
  mark : Char
  sign : Option Char
  digits : List Char
  deriving Repr, DecidableEq

namespace Exponent

def text (e : Exponent) : List Char := e.mark :: e.sign.toList ++ e.digits

/-- Gives a size the sign of the exponent. -/
def signed (e : Exponent) (size : Nat) : Int := if e.sign = some '-' then -(size : Int) else size

def value (e : Exponent) : Int := e.signed (Text.ofDigits e.digits)

/-- Digits of an exponent are passed over once those before them reach this number. -/
def enough : Nat := Nat.pow 2 16

/-- The exponent that the first digits spell, as many as it takes to reach `enough`. -/
def start (e : Exponent) : Int :=
  e.signed <| e.digits.foldl (fun n c => if n < enough then Text.appendDigit n c else n) 0

/-- The exponent that `cs` begins with and what follows it; none without digits. -/
def scan? : List Char → Option (Exponent × List Char)
  | [] => none
  | mark :: cs =>
    if mark = 'e' ∨ mark = 'E' then
      let (sign, cs) := match cs with
        | c :: rest => if c = '-' ∨ c = '+' then (some c, rest) else (none, cs)
        | [] => (none, [])
      let digits := cs.takeWhile Char.isDigit
      if digits.isEmpty then none else some (⟨mark, sign, digits⟩, cs.dropWhile Char.isDigit)
    else none

theorem text_append_scan {cs rest : List Char} {e : Exponent}
    (h : scan? cs = some (e, rest)) : e.text ++ rest = cs := by
  cases cs with
  | nil => simp [scan?] at h
  | cons mark cs =>
    simp only [scan?] at h
    split at h
    · split at h
      · split at h
        · split at h
          · cases h
          · cases h
            simp [text]
        · split at h
          · cases h
          · cases h
            simp [text]
      · simp at h
    · cases h

end Exponent

/-- A decimal as written, without its sign. -/
structure Decimal where
  whole : List Char
  point : Bool
  fraction : List Char
  exponent : Option Exponent
  deriving Repr, DecidableEq

namespace Decimal

def text (d : Decimal) : List Char :=
  d.whole ++ (if d.point then '.' :: d.fraction else []) ++ (d.exponent.elim [] Exponent.text)

/-- The double nearest to a decimal, as far as its exponent is read. -/
def toFloat (d : Decimal) : Float :=
  ofDecimal (Text.ofDigits (d.whole ++ d.fraction))
    (d.exponent.elim 0 Exponent.start - d.fraction.length)

/-- The longest decimal that `cs` begins with and what follows it: digits, then
perhaps a point with more digits, then perhaps an exponent. -/
def scan (cs : List Char) : Decimal × List Char :=
  let whole := cs.takeWhile Char.isDigit
  let rest := cs.dropWhile Char.isDigit
  let (point, fraction, rest) := match rest with
    | '.' :: ds => (true, ds.takeWhile Char.isDigit, ds.dropWhile Char.isDigit)
    | _ => (false, [], rest)
  match Exponent.scan? rest with
  | some (e, rest) => (⟨whole, point, fraction, some e⟩, rest)
  | none => (⟨whole, point, fraction, none⟩, rest)

/-- Scanning loses nothing. -/
theorem text_append_scan (cs : List Char) : (scan cs).1.text ++ (scan cs).2 = cs := by
  have split := List.takeWhile_append_dropWhile (p := Char.isDigit) (l := cs)
  simp only [scan]
  generalize cs.takeWhile Char.isDigit = whole at *
  generalize cs.dropWhile Char.isDigit = rest at *
  subst split
  split
  · rename_i e rest' he
    have := Exponent.text_append_scan he
    split at this <;> simp_all [text]
  · split <;> simp [text]

/-- Reads a whole text as a decimal with at least one digit and perhaps a sign. -/
def ofText? (text : String) : Option Float :=
  let (negative, cs) := match text.toList with
    | '-' :: cs => (true, cs)
    | '+' :: cs => (false, cs)
    | cs => (false, cs)
  let (d, rest) := scan cs
  if rest.isEmpty && !(d.whole ++ d.fraction).isEmpty then
    some (if negative then -d.toFloat else d.toFloat)
  else none

end Decimal

end PoolScaling.Number
