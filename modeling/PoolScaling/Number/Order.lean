/-! Extremes of doubles.

`larger` and `smaller` pass over NaN and keep their first argument on a tie, so
folding them over a list gives an extreme element of the numbers in it. -/
namespace PoolScaling.Number

def larger (a b : Float) : Float :=
  if a.isNaN || a < b then b else a

def smaller (a b : Float) : Float :=
  if a.isNaN || b < a then b else a

/-- Holds `x` between two bounds; NaN stays NaN. -/
def confine (x lo hi : Float) : Float :=
  if x < lo then lo else if hi < x then hi else x

def infinity : Float := 1.0 / 0.0

/-- The sum from left to right. No numbers sum to negative zero, the neutral
element of addition. -/
def total (xs : List Float) : Float := xs.foldl (· + ·) (-0.0)

end PoolScaling.Number
