import PoolScaling.Aggregator
import PoolScaling.Capacity.Converter
import PoolScaling.Policy.Damper

/-! The decision pipeline.

One decision converts every forecast into compute units, aggregates them and
damps the result. Policies run without an aggregate too, so that they see the
gap. -/
namespace PoolScaling

/-- An error that abandons a decision. -/
inductive DecisionError where
  | capacity (forecaster : String) (reason : CapacityError)
  | aggregation (e : AggregationError)
  | policy (e : PolicyError)

def DecisionError.message : DecisionError → String
  | capacity forecaster reason =>
    "forecast of `" ++ forecaster ++ "` could not be converted: " ++ reason.message
  | aggregation e => e.message
  | policy e => e.message

/-- The error that a decision error reports about, if it wraps one. -/
def DecisionError.cause : DecisionError → Option String
  | capacity _ reason => some reason.message
  | aggregation (.evaluation _ reason) => some reason.message
  | aggregation .notConfigured => none
  | policy _ => none

structure Pipeline where
  converter : Converter
  aggregator : Aggregator
  damper : Damper

namespace Pipeline

def new (stopwatch : Expr.Stopwatch) : Pipeline := ⟨.new, .new stopwatch, .new⟩

variable {ε δ α : Type}

def onConverter (wrap : ε → δ) (c : Change Converter ε α) : Change Pipeline δ α :=
  Change.onPart converter (fun p v => { p with converter := v }) wrap c

def onAggregator (wrap : ε → δ) (c : Change Aggregator ε α) : Change Pipeline δ α :=
  Change.onPart aggregator (fun p a => { p with aggregator := a }) wrap c

def onDamper (wrap : ε → δ) (c : Change Damper ε α) : Change Pipeline δ α :=
  Change.onPart damper (fun p d => { p with damper := d }) wrap c

/-! ### Configuration -/

/-- Checks every section of a configuration. -/
def validate (c : Config) : Except ConfigError Unit := do
  Converter.validate c.capacity
  Aggregator.validate c.expression
  Damper.validate c.damping

/-- Configures every stage, after a check of all sections. -/
def configure (c : Config) : Change Pipeline ConfigError Unit := do
  Change.ofResult (validate c)
  onConverter id (Converter.configure c.capacity)
  onAggregator id (Aggregator.configure c.expression)
  onDamper id (Damper.configure c.damping)

/-- The configuration, if every stage has one. -/
def configuration (p : Pipeline) : Option Config := do
  let expression ← p.aggregator.expression
  let capacity ← p.converter.configuration
  let damping ← p.damper.configuration
  some { expression, capacity, damping }

def ofConfig (stopwatch : Expr.Stopwatch) (c : Config) : Except ConfigError Pipeline :=
  match configure c (new stopwatch) with
  | .ok _ p => .ok p
  | .error e _ => .error e

/-! ### Decisions -/

/-- Converts forecasts in the order of their ids. -/
def convert (v : Converter) :
    Dictionary (Option Forecast) → Except DecisionError (Dictionary (Option Forecast))
  | [] => .ok []
  | (id, f) :: rest => do
    let f ← (v.convert f).mapError (.capacity id)
    let rest ← convert v rest
    .ok ((id, f) :: rest)

/-- The size that the pool should have; none when there is nothing to decide on. -/
def decide (forecasts : Dictionary (Option Forecast)) (pool : Option PoolSize) (now : Instant) :
    Change Pipeline (Failure DecisionError) (Option Float) := do
  let p ← get
  let units ← Change.ofResult ((convert p.converter forecasts).mapError .error)
  let aggregate ←
    Change.ofResult ((p.aggregator.aggregate units now).mapError (Failure.map .aggregation))
  onDamper (fun e => .error (.policy e)) (Damper.apply pool aggregate now)

end Pipeline

end PoolScaling
