import PoolScaling.Decision
import PoolScaling.Forecaster
import PoolScaling.Pipeline
import PoolScaling.Time.Clock

/-! The autoscaler.

A cycle asks every forecaster for a prediction, runs the pipeline and hands the
target of a resize to a callback. What the callback reports does not change the
decision. A run is a cycle after every interval until it is stopped; cycles that
fail are skipped. -/
namespace PoolScaling

/-- What a resize does to the pool, and whether it reports success. -/
abbrev Resize := UInt32 → Option PoolSize → Option PoolSize × Except String Unit

namespace Resize

/-- Succeeds and leaves the pool to others. -/
def accept : Resize := fun _ pool => (pool, .ok ())

/-- Brings the pool to the target at once. -/
def apply : Resize := fun target _ => (some ⟨target, target⟩, .ok ())

def fail (reason : String) : Resize := fun _ pool => (pool, .error reason)

end Resize

structure Autoscaler where
  forecasters : List Forecaster
  resize : Option Resize
  clock : Clock
  pipeline : Pipeline
  /-- The size of the pool as last observed. -/
  pool : Option PoolSize
  /-- Targets handed to the callback so far. -/
  requests : List UInt32

namespace Autoscaler

variable {ε α : Type}

def onPipeline (c : Change Pipeline ε α) : Change Autoscaler ε α :=
  Change.onPart pipeline (fun a p => { a with pipeline := p }) id c

def setPool (pool : Option PoolSize) : Change Autoscaler ε Unit := modify fun a => { a with pool }

/-- Hands a target to the callback, if there is one. -/
def request (target : UInt32) : Change Autoscaler ε Unit := modify fun a =>
  match a.resize with
  | none => a
  | some resize =>
    { a with pool := (resize target a.pool).1, requests := a.requests ++ [target] }

/-- One decision cycle. -/
def cycle (now : Instant) : Change Autoscaler (Failure DecisionError) Decision := do
  let a ← get
  let demand ← onPipeline (Pipeline.decide (gather a.forecasters a.pool now) a.pool now)
  let decision := Decision.ofDemand demand a.pool
  match decision with
  | .scaleTo target => request target
  | .noChange => pure ()
  return decision

/-- Reads the clock; a reading that tells no time is a crash. -/
def readClock : Change Autoscaler (Failure ε) Instant := do
  let (now, clock) := (← get).clock.read
  modify fun a => { a with clock }
  match now with
  | some now => return now
  | none => throw .crash

/-- A cycle at the time on the clock, skipped when it reports an error. -/
def wake : Change Autoscaler (Failure DecisionError) Unit := do
  let now ← readClock
  try discard (cycle now)
  catch
    | .error _ => pure ()
    | .crash => throw .crash

def wakeTimes : Nat → Change Autoscaler (Failure DecisionError) Unit
  | 0 => pure ()
  | n + 1 => do
    wake
    wakeTimes n

/-- Wakes after every interval until `stop` is over. -/
def run (interval stop : Duration) : Change Autoscaler (Failure DecisionError) Unit :=
  wakeTimes (stop.nanos / interval.nanos)

end Autoscaler

end PoolScaling
