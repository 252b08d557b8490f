import PoolScaling.Json.Printer
import PoolScaling.Json.Reader
import PoolScaling.Time.Calendar

/-! Forecasts and pool sizes, with their JSON form. -/
namespace PoolScaling

/-- The scale of a forecast: that of its metric, or members of the pool. -/
inductive Scale where
  | metric
  | computeUnits
  deriving Repr, DecidableEq

namespace Scale

def text : Scale → String
  | metric => "metric"
  | computeUnits => "compute_units"

def ofText? (s : String) : Option Scale :=
  if s = "metric" then some metric else if s = "compute_units" then some computeUnits else none

/-- A scale by its name, or by a table that holds nothing but the name. -/
def ofData? : Data → Option Scale
  | .text s => ofText? s
  | .table [(s, .null)] => ofText? s
  | _ => none

end Scale

structure Forecast where
  value : Float
  scale : Scale
  metric : String
  timestamp : Instant

namespace Forecast

def isComputeUnits (f : Forecast) : Bool := f.scale == .computeUnits

/-- The forecast with another value on another scale; metric and time stay. -/
def withValue (f : Forecast) (value : Float) (scale : Scale) : Forecast :=
  { f with value, scale }

/-- Equality of all parts; a NaN value differs from itself. -/
def same (f g : Forecast) : Bool :=
  f.value == g.value && f.scale == g.scale && f.metric == g.metric && f.timestamp == g.timestamp

def toData (f : Forecast) : Data :=
  .table [("value", .float f.value), ("unit", .text f.scale.text), ("metric", .text f.metric),
    ("timestamp", .text (Calendar.write f.timestamp "Z"))]

def ofData? (d : Data) : Option Forecast := do
  let fields ← d.fields? false 4
  let value ← fields.required? 0 ["value"] Data.float?
  let scale ← fields.required? 1 ["unit"] Scale.ofData?
  let metric ← fields.required? 2 ["metric"] Data.text?
  let timestamp ← fields.required? 3 ["timestamp"] fun d => d.text?.bind Calendar.read?
  some { value, scale, metric, timestamp }

def toJson (f : Forecast) : String := Json.write .compact f.toData

def ofJson? (text : String) : Option Forecast := (Json.read? text).bind ofData?

end Forecast

/-- The size of a pool as its backend reports it. -/
structure PoolSize where
  /-- The size the pool has been asked to reach. -/
  desired : UInt32
  /-- Members that are running. -/
  active : UInt32
  deriving Repr, DecidableEq

namespace PoolSize

/-- The desired size as a double. -/
def target (p : PoolSize) : Float := Number.signed false p.desired.toNat

def toData (p : PoolSize) : Data :=
  .table [("desired", .integer p.desired.toNat), ("active", .integer p.active.toNat)]

def ofData? (d : Data) : Option PoolSize := do
  let fields ← d.fields? false 2
  let desired ← fields.required? 0 ["desired"] (Data.natBelow? (Nat.pow 2 32))
  let active ← fields.required? 1 ["active"] (Data.natBelow? (Nat.pow 2 32))
  some ⟨desired.toUInt32, active.toUInt32⟩

def toJson (p : PoolSize) : String := Json.write .compact p.toData

def ofJson? (text : String) : Option PoolSize := (Json.read? text).bind ofData?

end PoolSize

end PoolScaling
