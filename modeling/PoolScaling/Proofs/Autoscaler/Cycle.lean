import PoolScaling.Autoscaler
import PoolScaling.Proofs.Pipeline.Damped

/-! Cycles.

A cycle fails before the damper or is one call to it (`attend_error`,
`attend_of_apply`). What it fails with or damps depends on the stages in front of
the damper alone (`aggregateOn`), and no cycle changes those. -/
namespace PoolScaling

/-- What a cycle finds: any forecasters and any pool at any time. -/
structure Occasion where
  forecasters : List Forecaster
  pool : Option PoolSize
  now : Instant

/-! ### Decisions -/

namespace Pipeline

variable {p : Pipeline} {o : Occasion}

theorem running_of_configure {c : Config} {before : Pipeline} (h : configure c before = .ok () p) :
    c.damping.validate = .ok () ∧ p.damper = .running c.damping .idle := by
  unfold configure at h
  obtain ⟨_, _, -, h⟩ := bind_eq_ok.mp h
  obtain ⟨_, _, -, h⟩ := bind_eq_ok.mp h
  obtain ⟨_, middle, -, h⟩ := bind_eq_ok.mp h
  obtain ⟨damper, hdamper, rfl⟩ := Change.onPart_eq_ok h
  exact Damper.running_of_configure hdamper

/-- The aggregate that is damped on an occasion. -/
def aggregateOn (p : Pipeline) (o : Occasion) : Except (Failure DecisionError) (Option Float) :=
  p.aggregate (gather o.forecasters o.pool o.now) o.now

theorem isFinite_of_aggregateOn {c : Float} (h : p.aggregateOn o = .ok (some c)) : c.isFinite = true :=
  isFinite_of_aggregate h

end Pipeline

/-! ### Cycles -/

namespace Autoscaler

/-- A cycle on an occasion. -/
def attend (o : Occasion) : Change Autoscaler (Failure DecisionError) Decision := do
  modify fun a => { a with forecasters := o.forecasters, pool := o.pool }
  cycle o.now

/-- An autoscaler that has just been configured. -/
def fresh (c : Config) : Autoscaler where
  forecasters := []
  resize := none
  clock := .manual (.ofSeconds 0 0)
  pipeline := Change.stateOf (Pipeline.configure c (.new .still))
  pool := none
  requests := []

/-- The autoscaler after it has handed on a decision. -/
def carryOut (a : Autoscaler) : Decision → Autoscaler
  | .noChange => a
  | .scaleTo target =>
    match a.resize with
    | none => a
    | some resize => { a with pool := (resize target a.pool).1, requests := a.requests ++ [target] }

variable {a : Autoscaler} {o : Occasion}

theorem carryOut_scaleTo {resize : Resize} (h : a.resize = some resize) (target : UInt32) :
    a.carryOut (.scaleTo target) =
      { a with pool := (resize target a.pool).1, requests := a.requests ++ [target] } := by
  unfold carryOut
  rw [h]

theorem carryOut_pipeline (a : Autoscaler) (decision : Decision) :
    (a.carryOut decision).pipeline = a.pipeline := by
  cases decision with
  | noChange => rfl
  | scaleTo target =>
    unfold carryOut
    cases a.resize <;> rfl

/-- A cycle fails in its decision or carries it out. -/
theorem cycle_eq (now : Instant) (a : Autoscaler) :
    cycle now a =
      match Pipeline.decide (gather a.forecasters a.pool now) a.pool now a.pipeline with
      | .ok demand pipeline =>
        .ok (.ofDemand demand a.pool) ({ a with pipeline }.carryOut (.ofDemand demand a.pool))
      | .error e pipeline => .error e { a with pipeline } := by
  unfold cycle
  rw [get_bind]
  cases hdecide : Pipeline.decide (gather a.forecasters a.pool now) a.pool now a.pipeline with
  | ok demand pipeline =>
    have hpart : onPipeline (Pipeline.decide (gather a.forecasters a.pool now) a.pool now) a =
        .ok demand { a with pipeline } := Change.onPart_ok hdecide
    rw [bind_ok hpart]
    dsimp only
    cases Decision.ofDemand demand a.pool with
    | noChange => rfl
    | scaleTo target => rfl
  | error e pipeline => exact bind_error (Change.onPart_error hdecide)

theorem attend_eq (o : Occasion) (a : Autoscaler) :
    attend o a = cycle o.now { a with forecasters := o.forecasters, pool := o.pool } := rfl

theorem attend_error {e : Failure DecisionError} (h : a.pipeline.aggregateOn o = .error e) :
    ∃ a', attend o a = .error e a' ∧ a'.pipeline = a.pipeline := by
  rw [Pipeline.aggregateOn] at h
  rw [attend_eq, cycle_eq, Pipeline.decide_error h]
  exact ⟨_, rfl, rfl⟩

/-- The autoscaler after its damper has been called on an occasion. -/
def damped (a : Autoscaler) (o : Occasion) (damper : Damper) : Autoscaler :=
  { a with forecasters := o.forecasters, pool := o.pool, pipeline := { a.pipeline with damper } }

theorem attend_of_apply {aggregate answer : Option Float} {damper : Damper}
    (h : a.pipeline.aggregateOn o = .ok aggregate)
    (happly : Damper.apply o.pool aggregate o.now a.pipeline.damper = .ok answer damper) :
    attend o a = .ok (.ofDemand answer o.pool)
      ((a.damped o damper).carryOut (.ofDemand answer o.pool)) := by
  rw [Pipeline.aggregateOn] at h
  rw [attend_eq, cycle_eq, Pipeline.decide_of_apply h happly]
  rfl

/-! ### Cycles by the clock -/

/-- A cycle at the time on the clock. -/
def timed : Change Autoscaler (Failure DecisionError) Decision := do cycle (← readClock)

theorem timed_of_read {now : Instant} {clock : Clock} (h : a.clock.read = (some now, clock)) :
    timed a = cycle now { a with clock } := by
  unfold timed readClock
  rw [bind_assoc, get_bind, h]
  rfl

/-- Without a time on the clock there is no cycle. -/
theorem timed_of_broken {clock : Clock} (h : a.clock.read = (none, clock)) :
    timed a = .error .crash { a with clock } := by
  unfold timed readClock
  rw [bind_assoc, get_bind, h]
  rfl

/-- What a cycle comes to. -/
abbrev Outcome := Except (Failure DecisionError) Decision

def crashed : Outcome → Bool
  | .error .crash => true
  | .ok _ | .error (.error _) => false

/-- Waking up is a cycle by the clock. It passes over what that reports, and not over a crash. -/
theorem wake_eq (a : Autoscaler) :
    wake a =
      if crashed (Change.result (timed a)) then .error .crash (Change.stateOf (timed a))
      else .ok () (Change.stateOf (timed a)) := by
  rcases hread : a.clock.read with ⟨now | now, clock⟩
  · rw [timed_of_broken hread]
    unfold wake readClock
    rw [bind_assoc, get_bind, hread]
    rfl
  · rw [timed_of_read hread]
    unfold wake readClock
    rw [bind_assoc, get_bind, hread]
    show EStateM.tryCatch (EStateM.map _ (cycle now)) _ { a with clock } = _
    rw [EStateM.tryCatch, EStateM.map]
    cases cycle now { a with clock } with
    | ok decision a' => rfl
    | error e a' => cases e <;> rfl

theorem wakeTimes_succ (n : Nat) (a : Autoscaler) :
    wakeTimes (n + 1) a =
      if crashed (Change.result (timed a)) then .error .crash (Change.stateOf (timed a))
      else wakeTimes n (Change.stateOf (timed a)) := by
  have hwake := wake_eq a
  rw [wakeTimes]
  split at hwake
  · rw [bind_error hwake, if_pos ‹_›]
  · rw [bind_ok hwake, if_neg ‹_›]

end Autoscaler

end PoolScaling
