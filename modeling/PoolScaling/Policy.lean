import PoolScaling.Forecast
import PoolScaling.Number.Whole
import PoolScaling.Policy.Tracker

/-! Scaling policies.

A policy damps a candidate, which is a size for the pool that need not be whole.
It sees the pool, if its size is known, and the decision time. An absent
candidate stays absent. -/
namespace PoolScaling

inductive Policy where
  /-- Keeps the desired size when the candidate is this close to it. -/
  | tolerance (limit : Float)
  /-- Holds scale-downs back for a grace period. -/
  | grace (period : Duration) (tracker : Tracker)
  /-- Hands the candidate from policy to policy. -/
  | chain (policies : List Policy)

namespace Policy

def name : Policy → String
  | tolerance _ => "delta-tolerance"
  | grace _ _ => "overprovisioning-grace-period"
  | chain _ => "chain"

/-- A candidate within the tolerance becomes the desired size. -/
def tolerate (limit : Float) (pool : Option PoolSize) (candidate : Option Float) : Option Float :=
  match candidate, pool with
  | some c, some p => if (p.target - c).abs ≤ limit then some p.target else some c
  | c, _ => c

/-- Whether a candidate, rounded up, is below the desired size. -/
def isScaleDown (p : PoolSize) (candidate : Float) : Bool := Number.ceil candidate < p.target

/-- A scale-down becomes the desired size until the grace period is over. Without a
pool the tracker stays as it is; without a candidate it ends. -/
def hold (period : Duration) (t : Tracker) (pool : Option PoolSize) (now : Instant)
    (candidate : Option Float) : Option Float × Tracker :=
  match candidate, pool with
  | none, _ => (none, .idle)
  | some c, none => (some c, t)
  | some c, some p =>
    let (t, passes) := t.step (isScaleDown p c) now period
    (some (if passes then c else p.target), t)

mutual

/-- The damped candidate, and the policy afterwards. -/
def apply (pool : Option PoolSize) (now : Instant) : Policy → Option Float → Option Float × Policy
  | tolerance limit, candidate => (tolerate limit pool candidate, tolerance limit)
  | grace period t, candidate =>
    let (candidate, t) := hold period t pool now candidate
    (candidate, grace period t)
  | chain policies, candidate =>
    let (candidate, policies) := applyAll pool now policies candidate
    (candidate, chain policies)

/-- Applies policies from left to right. -/
def applyAll (pool : Option PoolSize) (now : Instant) :
    List Policy → Option Float → Option Float × List Policy
  | [], candidate => (candidate, [])
  | p :: rest, candidate =>
    let (candidate, p) := apply pool now p candidate
    let (candidate, rest) := applyAll pool now rest candidate
    (candidate, p :: rest)

end

mutual

/-- The grace periods in a policy with their trackers, from left to right. -/
def graces : Policy → List (Duration × Tracker)
  | tolerance _ => []
  | grace period t => [(period, t)]
  | chain policies => allGraces policies

def allGraces : List Policy → List (Duration × Tracker)
  | [] => []
  | p :: rest => graces p ++ allGraces rest

end

end Policy

end PoolScaling
