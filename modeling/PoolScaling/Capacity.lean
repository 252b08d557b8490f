import PoolScaling.Change
import PoolScaling.Config

/-! The capacity table.

A table holds, per metric, the capacity of one compute unit. Mappings enter it
only after validation, and a metric that has a rate keeps it until the table is
replaced or cleared. -/
namespace PoolScaling

inductive CapacityError where
  | unrecognized (metric : String)
  | unmapped (metric : String)
  | negative (metric : String) (capacity : Float)
  | notConfigured
  | config (e : ConfigError)

def CapacityError.message : CapacityError → String
  | unrecognized metric => "unrecognized metric: " ++ metric
  | unmapped metric => "no compute-unit capacity configured for metric `" ++ metric ++ "`"
  | negative metric capacity =>
    "capacity for metric `" ++ metric ++ "` must be non-negative, got "
      ++ Expr.writeNumber capacity
  | notConfigured => "capacity mapper used before it was configured"
  | config e => e.message

structure CapacityTable where
  rates : Dictionary Float

namespace CapacityTable

def empty : CapacityTable := ⟨[]⟩

/-- Adds mappings to rates from left to right; the first one that is not valid or
whose metric has a rate already is the error. -/
def collect (rates : Dictionary Float) : List Mapping → Except ConfigError (Dictionary Float)
  | [] => .ok rates
  | m :: rest => do
    m.validate
    if rates.contains m.metric then .error (.duplicateMapping m.metric)
    else collect (Dictionary.insert m.metric m.rate rates) rest

def ofMappings (mappings : List Mapping) : Except ConfigError CapacityTable :=
  (collect [] mappings).map CapacityTable.mk

def contains (t : CapacityTable) (metric : String) : Bool := t.rates.contains metric

/-- Metrics in ascending order. -/
def metrics (t : CapacityTable) : List String := t.rates.keys

def size (t : CapacityTable) : Nat := t.rates.length

/-- The capacity of one compute unit. -/
def rate (t : CapacityTable) (metric : String) : Except CapacityError Float :=
  match Dictionary.find? metric t.rates with
  | some rate => .ok rate
  | none => .error (.unrecognized metric)

/-- How many compute units supply a capacity, which must not be negative or NaN. -/
def computeUnits (t : CapacityTable) (metric : String) (capacity : Float) :
    Except CapacityError Float := do
  let rate ← t.rate metric
  if 0.0 ≤ capacity then .ok (capacity / rate) else .error (.negative metric capacity)

/-- Equality of metrics and rates. -/
def same (t u : CapacityTable) : Bool := t.rates == u.rates

/-! ### Changes of a shared table -/

/-- Replaces every mapping. -/
def replace (mappings : List Mapping) : Change CapacityTable CapacityError Unit := do
  let t ← Change.ofResult ((ofMappings mappings).mapError .config)
  set t

/-- Adds one mapping; the rate of a metric is never replaced. -/
def add (m : Mapping) : Change CapacityTable CapacityError Unit := do
  Change.ofResult (m.validate.mapError .config)
  let t ← get
  if t.contains m.metric then throw (.config (.duplicateMapping m.metric))
  else set (CapacityTable.mk (Dictionary.insert m.metric m.rate t.rates))

def clear : Change CapacityTable CapacityError Unit := set empty

end CapacityTable

end PoolScaling
