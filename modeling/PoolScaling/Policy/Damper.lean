import PoolScaling.Change
import PoolScaling.Config
import PoolScaling.Policy

/-! The policies of a configuration.

The tolerance comes before the grace period, so a small change starts no tracker. It
ends one that is running, because the candidate has become the desired size. -/
namespace PoolScaling

inductive PolicyError where
  | notConfigured
  deriving Repr, DecidableEq

def PolicyError.message : PolicyError → String
  | notConfigured => "scaling policy enforcer used before it was configured"

/-- The policies that a damping asks for; a zero asks for none. -/
def Damping.policies (d : Damping) : List Policy :=
  (if 0.0 < d.tolerance then [.tolerance d.tolerance] else [])
    ++ (if d.grace = .zero then [] else [.grace d.grace .idle])

/-- A damping with its policies in their present state. -/
structure Damper.Active where
  damping : Damping
  policies : List Policy

/-- Applies the policies of the damping it is configured with, if any. -/
structure Damper where
  active : Option Damper.Active

namespace Damper

def new : Damper := ⟨none⟩

def validate (d : Damping) : Except ConfigError Unit := d.validate

/-- Starts with fresh policies. -/
def configure (d : Damping) : Change Damper ConfigError Unit := do
  Change.ofResult (validate d)
  set (Damper.mk (some ⟨d, d.policies⟩))

def configuration (d : Damper) : Option Damping := d.active.map Active.damping

/-- The names of the policies in the order of their application. -/
def names (d : Damper) : List String :=
  match d.active with
  | none => []
  | some a => a.policies.map Policy.name

/-- Damps a candidate. -/
def apply (pool : Option PoolSize) (candidate : Option Float) (now : Instant) :
    Change Damper PolicyError (Option Float) := do
  match (← get).active with
  | none => throw .notConfigured
  | some a =>
    let (candidate, policies) := Policy.applyAll pool now a.policies candidate
    set (Damper.mk (some { a with policies }))
    return candidate

end Damper

end PoolScaling
