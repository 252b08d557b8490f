import PoolScaling.Number.Parts

/-! The remainder of a division that is truncated toward zero.

The remainder of two doubles is again a double: on the finer of the two binary
grids both are whole multiples of one unit, and the remainder is a multiple of
that unit smaller than the divisor. -/
namespace PoolScaling.Number

/-- The double `n * 2 ^ e` with a sign; rounded when there is none. -/
def ofDyadic (negative : Bool) (n : Nat) (e : Int) : Float :=
  let sign : Float.Model.UnpackedFloat.Sign := if negative then .negative else .positive
  if n = 0 then signed negative 0
  else .ofModel (.pack (.round .binary64 sign n e))

/-- The remainder of `x` by `y`, with the sign of `x`. It is NaN when there is
no quotient, and `x` itself when `y` is infinite. -/
def remainder (x y : Float) : Float :=
  match Parts.of x, Parts.of y with
  | .nan, _ | _, .nan | .infinite _, _ => 0.0 / 0.0
  | _, .infinite _ => x
  | .finite negative m₁ e₁, .finite _ m₂ e₂ =>
    if m₂ = 0 then 0.0 / 0.0
    else
      let e := min e₁ e₂
      ofDyadic negative ((m₁ * Nat.pow 2 (e₁ - e).toNat) % (m₂ * Nat.pow 2 (e₂ - e).toNat)) e

end PoolScaling.Number
