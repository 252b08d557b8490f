import PoolScaling.Dictionary

/-! The named functions of the expression language. -/
namespace PoolScaling.Expr

inductive Builtin where
  | max | min | sum | avg | count | abs | ceil | floor | round | sqrt | pow | clamp | pluck
  deriving Repr, DecidableEq

namespace Builtin

def all : List Builtin :=
  [max, min, sum, avg, count, abs, ceil, floor, round, sqrt, pow, clamp, pluck]

def name : Builtin → String
  | max => "max" | min => "min" | sum => "sum" | avg => "avg" | count => "count"
  | abs => "abs" | ceil => "ceil" | floor => "floor" | round => "round" | sqrt => "sqrt"
  | pow => "pow" | clamp => "clamp" | pluck => "pluck"

/-- The builtin of a name; `mean` is another name of `avg`. -/
def ofName? (s : String) : Option Builtin :=
  if s = "mean" then some avg else all.find? fun b => b.name = s

end Builtin

end PoolScaling.Expr
