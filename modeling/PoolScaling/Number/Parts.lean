/-! The parts of a double.

`Parts.of` takes a double apart into a sign, a natural mantissa and a binary
exponent, so that the rest of the library can treat a finite double as the exact
dyadic number it is. Both zeros are finite with mantissa zero. -/
namespace PoolScaling.Number

inductive Parts where
  | nan
  | infinite (negative : Bool)
  /-- Denotes `mantissa * 2 ^ exponent`, negated when `negative`. -/
  | finite (negative : Bool) (mantissa : Nat) (exponent : Int)
  deriving Repr, DecidableEq

namespace Parts

open Float.Model.UnpackedFloat in
/-- The sign as a truth value. -/
def isNegative : Sign → Bool
  | .negative => true
  | .positive => false

def of (x : Float) : Parts :=
  match x.toModel.unpack with
  | .notANumber => .nan
  | .infinity s => .infinite (isNegative s)
  | .zero s => .finite (isNegative s) 0 0
  | .finite s m e _ => .finite (isNegative s) m e

end Parts

/-- A natural number below 2^53 as a double of the given sign; exact there. -/
def signed (negative : Bool) (n : Nat) : Float :=
  if negative then -n.toUInt64.toFloat else n.toUInt64.toFloat

/-- Whether `x` carries a minus sign; negative zero does. -/
def hasMinus (x : Float) : Bool :=
  match Parts.of x with
  | .nan => false
  | .infinite negative => negative
  | .finite negative _ _ => negative

end PoolScaling.Number
