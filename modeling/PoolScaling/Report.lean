import PoolScaling.Decision
import PoolScaling.Forecaster
import PoolScaling.Pipeline

/-! One decision over forecasts from a file.

The file is a JSON object of forecasts by the ids of their forecasters. The
report tells what was decided on and what follows from it. -/
namespace PoolScaling

/-! ### Forecasts from a file -/

/-- A forecast as given: its value, perhaps a metric, perhaps a scale. Null is an
absent forecast. -/
def Forecast.ofInput? (now : Instant) : Data → Option (Option Forecast)
  | .null => some none
  | d => do
    let fields ← d.fields? false 3
    let value ← fields.required? 0 ["value"] Data.float?
    let metric ← fields.optional? 1 ["metric"] "" Data.text?
    let scale ← fields.optional? 2 ["unit"] .metric fun
      | .null => some .metric
      | d => Scale.ofData? d
    some (some { value, scale, metric, timestamp := now })

/-- Forecasts made at `now`; the last one of an id counts. -/
def readForecasts? (text : String) (now : Instant) : Option (Dictionary (Option Forecast)) := do
  match ← Json.read? text with
  | .table entries =>
    let forecasts ← entries.mapM fun (id, d) => do
      let f ← Forecast.ofInput? now d
      some (id, f)
    some (.ofList forecasts)
  | _ => none

/-! ### The report -/

structure Report where
  time : Instant
  forecasters : Nat
  pool : Option PoolSize
  demand : Option Float
  decision : Decision

/-- Why there is no report. -/
inductive ReportError where
  | config (e : ConfigError)
  | decision (e : DecisionError)

namespace Report

/-- Decides once, with a new pipeline. -/
def make (stopwatch : Expr.Stopwatch) (c : Config) (forecasts : Dictionary (Option Forecast))
    (pool : Option PoolSize) (now : Instant) : Except (Failure ReportError) Report :=
  match Pipeline.ofConfig stopwatch c with
  | .error e => .error (.error (.config e))
  | .ok pipeline =>
    match Pipeline.decide forecasts pool now pipeline with
    | .error f _ => .error (f.map .decision)
    | .ok demand _ =>
      .ok {
        time := now
        forecasters := forecasts.length
        pool
        demand
        decision := .ofDemand demand pool }

def toData (r : Report) : Data :=
  .table [
    ("decision", r.demand.elim .null .float),
    ("decision_time", .text (Calendar.write r.time "+00:00")),
    ("forecasters", .integer r.forecasters),
    ("pool", r.pool.elim .null fun p =>
      .table [("active", .integer p.active.toNat), ("desired", .integer p.desired.toNat)]),
    ("scale_to", r.decision.target?.elim .null fun n => .integer n.toNat)]

def toJson (r : Report) : String := Json.write .pretty r.toData

end Report

end PoolScaling
