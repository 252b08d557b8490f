import PoolScaling.Change
import PoolScaling.Config
import PoolScaling.Forecast

/-! Aggregation of forecasts.

The configured expression sees each forecaster as a record under its id, the
records of all of them with the decision time as `input`, and the bare values as
`predictions`. Both lists follow the order of the ids. It runs only when every
forecaster has a forecast. -/
namespace PoolScaling

inductive AggregationError where
  | notConfigured
  | evaluation (expression : String) (reason : Expr.EvalError)

def AggregationError.message : AggregationError → String
  | notConfigured => "aggregator used before it was configured"
  | evaluation expression reason =>
    "aggregation expression `" ++ expression ++ "` failed: " ++ reason.message

/-- Evaluates the expression it is configured with, if any. -/
structure Aggregator where
  engine : Expr.Engine
  expression : Option String

namespace Aggregator

/-- Evaluations are timed by the stopwatch. -/
def new (stopwatch : Expr.Stopwatch) : Aggregator := ⟨.standard stopwatch, none⟩

def validate (expression : String) : Except ConfigError Unit :=
  (Expr.check expression).mapError (.invalidExpression expression)

def configure (expression : String) : Change Aggregator ConfigError Unit := do
  Change.ofResult (validate expression)
  modify fun a => { a with expression := some expression }

/-- All forecasts, if every one is there. -/
def present? : Dictionary (Option Forecast) → Option (Dictionary Forecast)
  | [] => some []
  | (id, f) :: rest => do
    let f ← f
    let rest ← present? rest
    some ((id, f) :: rest)

/-- What an expression sees of one forecaster. -/
def record (id : String) (f : Forecast) : Expr.Value :=
  .ofFields [("forecaster", .string id), ("prediction", .number f.value)]

/-- The decision time and the records of all forecasters. -/
def input (forecasts : Dictionary Forecast) (now : Instant) : Expr.Value :=
  .ofFields [("timestamp", .number (Float.ofInt now.millis)),
    ("predictions", .array (forecasts.map fun (id, f) => record id f))]

/-- The names `input` and `predictions` shadow forecasters of these ids. -/
def bindings (forecasts : Dictionary Forecast) (now : Instant) : Dictionary Expr.Value :=
  Dictionary.insertAll (forecasts.map fun (id, f) => (id, record id f))
    [("input", input forecasts now),
      ("predictions", .array (forecasts.map fun (_, f) => .number f.value))]

/-- The value of the expression; none without forecasts, or when one is absent. -/
def aggregate (a : Aggregator) (forecasts : Dictionary (Option Forecast)) (now : Instant) :
    Except (Failure AggregationError) (Option Float) :=
  match a.expression with
  | none => .error (.error .notConfigured)
  | some expression =>
    if forecasts.isEmpty then .ok none
    else
      match present? forecasts with
      | none => .ok none
      | some forecasts =>
        match a.engine.evaluate expression (bindings forecasts now) with
        | .ok value => .ok (some value)
        | .error f => .error (f.map (.evaluation expression))

end Aggregator

end PoolScaling
