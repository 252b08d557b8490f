import PoolScaling.Number.Shortest

/-! Number layouts.

A `Layout` holds the choices that a written form of doubles is free to make once
the shortest digits are known. Every text format of this library that writes
numbers has one such value beside its printer. -/
namespace PoolScaling.Number

structure Layout where
  /-- Least and first too large exponent of the leading digit that is written
  without an exponent mark; always when absent. -/
  positional : Option (Int × Int)
  /-- What follows the digits of a whole number written without an exponent. -/
  wholeSuffix : String
  /-- Marks a positive exponent. -/
  plus : String
  nan : String
  infinity : String
  tie : Tie
  deriving Repr

namespace Layout

def zeros (n : Nat) : String := String.ofList (List.replicate n '0')

/-- The digits `d` times `10 ^ k` without an exponent mark. -/
def writePositional (l : Layout) (d : Nat) (k : Int) : String :=
  let digits := toString d
  let before := (digits.length : Int) + k
  if 0 ≤ k then digits ++ zeros k.toNat ++ l.wholeSuffix
  else if 0 < before then
    let cs := digits.toList
    String.ofList (cs.take before.toNat) ++ "." ++ String.ofList (cs.drop before.toNat)
  else "0." ++ zeros (-before).toNat ++ digits

/-- The digits `d` times `10 ^ k` with one digit before the point. -/
def writeScientific (l : Layout) (d : Nat) (k : Int) : String :=
  let cs := (toString d).toList
  let x := (cs.length : Int) - 1 + k
  let fraction := cs.drop 1
  let point := if fraction.isEmpty then "" else "."
  let mark := if x < 0 then "e-" else "e" ++ l.plus
  String.ofList (cs.take 1) ++ point ++ String.ofList fraction ++ mark ++ toString x.natAbs

/-- The text of a double. -/
def write (l : Layout) (x : Float) : String :=
  match Parts.of x with
  | .nan => l.nan
  | .infinite negative => (if negative then "-" else "") ++ l.infinity
  | .finite negative m e =>
    let sign := if negative then "-" else ""
    if m = 0 then sign ++ "0" ++ l.wholeSuffix
    else
      let (d, k) := shortest l.tie m e
      let x := ((toString d).length : Int) - 1 + k
      let positional := match l.positional with
        | none => true
        | some (least, limit) => least ≤ x && x < limit
      sign ++ if positional then l.writePositional d k else l.writeScientific d k

end Layout

end PoolScaling.Number
