import PoolScaling.Forecast
import PoolScaling.Number.Order
import PoolScaling.Number.Whole

/-! Scale decisions.

A damped size becomes a decision by rounding up to whole compute units, held
between zero and the largest pool. The size that the pool has already been asked
to reach is no change. -/
namespace PoolScaling

inductive Decision where
  | noChange
  | scaleTo (target : UInt32)
  deriving Repr, DecidableEq

namespace Decision

def largestPool : Nat := Nat.pow 2 32 - 1

/-- The whole size that meets a demand. -/
def roundUp (demand : Float) : UInt32 :=
  let bounded := Number.confine (Number.ceil demand) 0.0 (Number.signed false largestPool)
  ((Number.toNat? bounded).getD 0).toUInt32

def ofDemand (demand : Option Float) (pool : Option PoolSize) : Decision :=
  match demand with
  | none => noChange
  | some d =>
    let target := roundUp d
    if pool.any fun p => p.desired == target then noChange else scaleTo target

def target? : Decision → Option UInt32
  | noChange => none
  | scaleTo target => some target

end Decision

end PoolScaling
