import PoolScaling.Dictionary
import PoolScaling.Forecast

/-! Forecasters.

A forecaster predicts the demand of one decision from the size of the pool and
the decision time. It may have no prediction, and it may fail. Forecasters come from
outside and may keep a state; here they are taken to have none. -/
namespace PoolScaling

structure ForecastError where
  forecaster : String
  reason : String
  deriving Repr, DecidableEq

structure Forecaster where
  id : String
  /-- That a prediction is made from these two alone is an assumption about forecasters:
  one that remembers what it was asked, or looks elsewhere, is not covered. -/
  predict : Option PoolSize → Instant → Except ForecastError (Option Forecast)

namespace Forecaster

/-- Predicts the same value of a metric at all times. -/
def metric (id metric : String) (value : Float) : Forecaster where
  id := id
  predict _ now := .ok (some { value, scale := .metric, metric, timestamp := now })

/-- Predicts the same number of compute units at all times. -/
def computeUnits (id : String) (value : Float) : Forecaster where
  id := id
  predict _ now := .ok (some { value, scale := .computeUnits, metric := "", timestamp := now })

/-- Never has a prediction. -/
def absent (id : String) : Forecaster where
  id := id
  predict _ _ := .ok none

def failing (id reason : String) : Forecaster where
  id := id
  predict _ _ := .error ⟨id, reason⟩

/-- Predicts an offset to the desired size, and nothing without a pool. -/
def relative (id : String) (offset : Float) : Forecaster where
  id := id
  predict pool now := .ok <| pool.map fun p =>
    { value := p.target + offset, scale := .computeUnits, metric := "", timestamp := now }

end Forecaster

/-- One forecast for each id. A failing forecaster has none, and the last of several
forecasters of one id counts. -/
def gather (forecasters : List Forecaster) (pool : Option PoolSize) (now : Instant) :
    Dictionary (Option Forecast) :=
  Dictionary.ofList <| forecasters.map fun f =>
    (f.id, match f.predict pool now with
      | .ok forecast => forecast
      | .error _ => none)

end PoolScaling
