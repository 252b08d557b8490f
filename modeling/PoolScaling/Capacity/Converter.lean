import PoolScaling.Capacity
import PoolScaling.Forecast

/-! Conversion of forecasts into compute units. -/
namespace PoolScaling

/-- Mappings as they were given, with the table built from them. -/
structure Converter.Active where
  mappings : List Mapping
  table : CapacityTable

/-- Converts by the mappings it is configured with, if any. -/
structure Converter where
  active : Option Converter.Active

namespace Converter

def new : Converter := ⟨none⟩

def validate (mappings : List Mapping) : Except ConfigError Unit :=
  (CapacityTable.ofMappings mappings).map fun _ => ()

def configure (mappings : List Mapping) : Change Converter ConfigError Unit := do
  let table ← Change.ofResult (CapacityTable.ofMappings mappings)
  set (Converter.mk (some ⟨mappings, table⟩))

def configuration (v : Converter) : Option (List Mapping) := v.active.map Active.mappings

/-- Converts the value of a forecast; metric and time stay. -/
def convertWith (t : CapacityTable) (f : Forecast) : Except CapacityError Forecast :=
  match t.computeUnits f.metric f.value with
  | .ok units => .ok (f.withValue units .computeUnits)
  | .error (.unrecognized metric) => .error (.unmapped metric)
  | .error e => .error e

/-- An absent forecast stays absent even without a configuration, since there is
nothing to convert; a forecast in compute units stays as it is. -/
def convert (v : Converter) : Option Forecast → Except CapacityError (Option Forecast)
  | none => .ok none
  | some f =>
    match v.active with
    | none => .error .notConfigured
    | some a => if f.isComputeUnits then .ok (some f) else (convertWith a.table f).map some

end Converter

end PoolScaling
