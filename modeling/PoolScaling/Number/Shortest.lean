import PoolScaling.Number.Decimal

/-! The shortest decimal of a double.

The reals that round to a finite double form an interval around it; its ends
belong to it exactly when the mantissa is even. `shortest` looks for the
coarsest decimal grid with a point in that interval and takes the point nearest
to the double. Only the two grid points next to the double can be nearest, and
all comparisons are between natural numbers. -/
namespace PoolScaling.Number

/-- Which of two equally near decimals is taken. -/
inductive Tie where
  | up
  | even
  deriving Repr, DecidableEq

/-- The interval of reals that round to `mantissa * 2 ^ exponent`, in units of
`2 ^ (exponent - 2)`. -/
structure Interval where
  low : Nat
  value : Nat
  high : Nat
  closed : Bool
  unit : Int
  deriving Repr

namespace Interval

/-- Below a power of two the doubles lie twice as close as above it. -/
def of (mantissa : Nat) (exponent : Int) : Interval where
  low := if mantissa = Nat.pow 2 52 ∧ -1074 < exponent then 4 * mantissa - 1 else 4 * mantissa - 2
  value := 4 * mantissa
  high := 4 * mantissa + 2
  closed := mantissa % 2 == 0
  unit := exponent - 2

/-- What multiplies the interval's numbers, and what multiplies `c`, when both are
compared with `c * 10 ^ k` over the naturals. -/
def scales (i : Interval) (k : Int) : Nat × Nat :=
  (Nat.pow 2 i.unit.toNat * Nat.pow 10 (-k).toNat, Nat.pow 10 k.toNat * Nat.pow 2 (-i.unit).toNat)

/-- Whether `c * 10 ^ k` rounds to the double. -/
def holds (i : Interval) (k : Int) (c : Nat) : Bool :=
  let (a, b) := i.scales k
  if i.closed then i.low * a ≤ c * b && c * b ≤ i.high * a
  else i.low * a < c * b && c * b < i.high * a

/-- The point of the grid `10 ^ k` that is nearest to the double, if one rounds to it. -/
def nearest? (i : Interval) (tie : Tie) (k : Int) : Option Nat :=
  let (a, b) := i.scales k
  let below := i.value * a / b
  let twice := 2 * (i.value * a % b)
  match i.holds k below, i.holds k (below + 1) with
  | false, false => none
  | true, false => some below
  | false, true => some (below + 1)
  | true, true =>
    if twice < b then some below
    else if b < twice then some (below + 1)
    else match tie with
      | .up => some (below + 1)
      | .even => some (if below % 2 = 0 then below else below + 1)

end Interval

/-- The decimal exponent of the leading digit of `mantissa * 2 ^ exponent`. -/
def leadingExponent (mantissa : Nat) (exponent : Int) : Int :=
  let size := mantissa * Nat.pow 2 exponent.toNat
  let unit := Nat.pow 2 (-exponent).toNat
  if unit ≤ size then (digitCount (size / unit) : Int) - 1
  else -(digitCount ((unit - 1) / size) : Int)

/-- Moves the trailing zeros of a decimal into its exponent. -/
def stripZeros : Nat → Nat → Int → Nat × Int
  | 0, n, e => (n, e)
  | fuel + 1, n, e => if n % 10 = 0 then stripZeros fuel (n / 10) (e + 1) else (n, e)

/-- Digits `d` and an exponent `k` such that `d * 10 ^ k` rounds to the positive
double `mantissa * 2 ^ exponent`, with as few digits as possible. Seventeen
digits always suffice. -/
def shortest (tie : Tie) (mantissa : Nat) (exponent : Int) : Nat × Int :=
  let i := Interval.of mantissa exponent
  let top := leadingExponent mantissa exponent
  let grids := (List.range 17).map fun n : Nat => top - n
  let hit := grids.findSome? fun k => (i.nearest? tie k).map fun c => (c, k)
  let (d, k) := hit.getD (mantissa, 0)
  stripZeros 17 d k

end PoolScaling.Number
