import PoolScaling.Data
import PoolScaling.Expr.Eval

/-! Configuration of an autoscaler.

A configuration names the expression that combines forecasts, the capacity that
one compute unit adds per metric, and the damping of decisions. -/
namespace PoolScaling

/-- The capacity of one compute unit in terms of a metric. -/
structure Mapping where
  metric : String
  rate : Float

/-- Damping applied to an aggregate before it becomes a decision. -/
structure Damping where
  /-- Changes of at most this size are ignored; none when zero. -/
  tolerance : Float
  /-- How long an excess has to last before the pool shrinks; none when zero. -/
  grace : Duration

structure Config where
  expression : String
  capacity : List Mapping
  damping : Damping

def Damping.none : Damping := ⟨0.0, .zero⟩

inductive ConfigError where
  | invalidExpression (expression : String) (reason : Expr.EvalError)
  | missingMetric
  | invalidRate (metric : String) (rate : Float)
  | duplicateMapping (metric : String)
  | invalidTolerance (tolerance : Float)
  | invalidDuration (text : String)

def ConfigError.message : ConfigError → String
  | invalidExpression expression reason =>
    "invalid aggregation expression `" ++ expression ++ "`: " ++ reason.message
  | missingMetric => "capacity mapping is missing a metric name"
  | invalidRate metric rate =>
    "capacity rate for metric `" ++ metric ++ "` must be positive, got "
      ++ Expr.writeNumber rate
  | duplicateMapping metric => "metric `" ++ metric ++ "` is already mapped"
  | invalidTolerance tolerance =>
    "machine delta tolerance must be a non-negative number, got " ++ Expr.writeNumber tolerance
  | invalidDuration text => "invalid duration: " ++ text

/-- The metric has to be named and its rate to be positive and finite. -/
def Mapping.validate (m : Mapping) : Except ConfigError Unit :=
  if (Text.trim m.metric).isEmpty then .error .missingMetric
  else if !(0.0 < m.rate) || m.rate.isInf then .error (.invalidRate m.metric m.rate)
  else .ok ()

/-- The tolerance has to be finite and not negative. -/
def Damping.validate (d : Damping) : Except ConfigError Unit :=
  if !d.tolerance.isFinite || d.tolerance < 0.0 then .error (.invalidTolerance d.tolerance)
  else .ok ()

/-- Reads a duration for a configuration. -/
def Duration.parse (text : String) : Except ConfigError Duration :=
  match Duration.ofText? text with
  | some d => .ok d
  | none => .error (.invalidDuration (Text.trim text))

end PoolScaling
