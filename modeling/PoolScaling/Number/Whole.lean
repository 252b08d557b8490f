import PoolScaling.Number.Parts

/-! Rounding to whole numbers.

A double whose binary exponent is not negative is whole already. Any other is
less than 2^53 in size, so its whole neighbours are doubles too and each of
`floor`, `ceil` and `round` is exact. A result of zero keeps the sign of the
argument; infinities and NaN stay as they are. -/
namespace PoolScaling.Number

/-- Rounds the size of a fractional `x` with `pick`, which is given the sign, the
whole part, the fraction's numerator and its denominator. -/
def roundWith (pick : Bool → Nat → Nat → Nat → Nat) (x : Float) : Float :=
  match Parts.of x with
  | .finite negative m (.negSucc k) =>
    let unit := Nat.pow 2 (k + 1)
    signed negative (pick negative (m / unit) (m % unit) unit)
  | _ => x

/-- The greatest whole number that is not above `x`. -/
def floor : Float → Float :=
  roundWith fun negative q r _ => if negative && r != 0 then q + 1 else q

/-- The least whole number that is not below `x`. -/
def ceil : Float → Float :=
  roundWith fun negative q r _ => if !negative && r != 0 then q + 1 else q

/-- The nearest whole number; a half goes away from zero. -/
def round : Float → Float :=
  roundWith fun _ q r unit => if unit ≤ 2 * r then q + 1 else q

/-- The size of a finite whole double, rounded toward zero. -/
def magnitude (m : Nat) : Int → Nat
  | .ofNat k => m * Nat.pow 2 k
  | .negSucc k => m / Nat.pow 2 (k + 1)

/-- The natural number that `x` denotes, if it is whole and not negative. -/
def toNat? (x : Float) : Option Nat :=
  match Parts.of x with
  | .finite negative m e =>
    let n := magnitude m e
    let whole := match e with
      | .ofNat _ => true
      | .negSucc k => m % Nat.pow 2 (k + 1) == 0
    if whole && (!negative || m == 0) then some n else none
  | _ => none

end PoolScaling.Number
