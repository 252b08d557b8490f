import PoolScaling.Config
import PoolScaling.Data
import PoolScaling.Json.Reader
import PoolScaling.Toml.Printer
import PoolScaling.Toml.Reader

/-! Configuration files.

A file is JSON if its name ends in `.json` in any case, and TOML otherwise. Both
say the same: an expression, capacity mappings, and the damping. In a list that
stands for a record, TOML tolerates spare items and JSON does not. -/
namespace PoolScaling

/-! ### From data -/

def Mapping.ofData? (spare : Bool) (d : Data) : Option Mapping := do
  let fields ← d.fields? spare 2
  let metric ← fields.optional? 0 ["metric"] "" Data.text?
  let rate ←
    fields.required? 1 ["amount_per_compute_unit", "amountPerComputeUnit"] Data.float?
  some { metric, rate }

/-- A grace period: a text with a unit, or a number of seconds. -/
def Duration.ofData? : Data → Option Duration
  | .text s => ofText? s
  | d => (d.natBelow? (Nat.pow 2 64)).map ofSeconds

def Damping.ofData? (spare : Bool) (d : Data) : Option Damping := do
  let fields ← d.fields? spare 2
  let tolerance ←
    fields.optional? 0 ["machine_delta_tolerance", "machineDeltaTolerance"] 0.0 Data.float?
  let grace ←
    fields.optional? 1 ["overprovisioning_grace_period", "overprovisioningGracePeriod"] .zero
      Duration.ofData?
  some { tolerance, grace }

namespace Config

/-- The expression of an aggregator section. -/
def expressionOf? (spare : Bool) (d : Data) : Option String := do
  let fields ← d.fields? spare 1
  fields.required? 0 ["expression"] Data.text?

def ofData? (spare : Bool) (d : Data) : Option Config := do
  let fields ← d.fields? spare 3
  let expression ← fields.required? 0 ["aggregator"] (expressionOf? spare)
  let capacity ← fields.optional? 1 ["capacity"] [] fun d => do
    (← d.list?).mapM (Mapping.ofData? spare)
  let damping ←
    fields.optional? 2 ["scaling_policies", "scalingPolicies"] .none (Damping.ofData? spare)
  some { expression, capacity, damping }

def ofJson? (text : String) : Option Config := (Json.read? text).bind (ofData? false)

def ofToml? (text : String) : Option Config := (Toml.read? text).bind (ofData? true)

end Config

/-! ### To text -/

def Mapping.toToml (m : Mapping) : String :=
  "\n[[capacity]]\n" ++ Toml.writeEntry "metric" (Toml.writeText m.metric)
    ++ Toml.writeEntry "amount_per_compute_unit" (Toml.writeNumber m.rate)

def Damping.toToml (d : Damping) : String :=
  "\n[scaling_policies]\n"
    ++ Toml.writeEntry "machine_delta_tolerance" (Toml.writeNumber d.tolerance)
    ++ Toml.writeEntry "overprovisioning_grace_period" (Toml.writeText d.grace.toText)

/-- A list of no mappings has no sections and comes before all of them. -/
def Config.toToml (c : Config) : String :=
  (if c.capacity.isEmpty then Toml.writeEntry "capacity" "[]" ++ "\n" else "")
    ++ "[aggregator]\n" ++ Toml.writeEntry "expression" (Toml.writeText c.expression)
    ++ String.join (c.capacity.map Mapping.toToml) ++ c.damping.toToml

/-! ### Files -/

/-- Why a configuration cannot be loaded. -/
inductive LoadError where
  | unreadable
  | json
  | toml
  deriving Repr, DecidableEq

def LoadError.message : LoadError → String
  | unreadable => "the file cannot be read"
  | json => "the file is not a configuration in JSON"
  | toml => "the file is not a configuration in TOML"

/-- Whether the name of a file ends in `.json`; a name has something before its ending. -/
def isJsonPath (path : String) : Bool :=
  let name := path.toList.reverse.takeWhile (· ≠ '/')
  let ending := (name.takeWhile (· ≠ '.')).reverse
  let before := name.dropWhile (· ≠ '.')
  ending.map Char.toLower == ['j', 's', 'o', 'n'] && 1 < before.length

/-- Loads a configuration; `read` gives the text of a file. -/
def Config.load (read : String → Option String) (path : String) : Except LoadError Config :=
  match read path with
  | none => .error .unreadable
  | some text =>
    if isJsonPath path then (ofJson? text).elim (.error .json) .ok
    else (ofToml? text).elim (.error .toml) .ok

end PoolScaling
