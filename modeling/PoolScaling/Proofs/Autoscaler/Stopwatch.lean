import PoolScaling.Proofs.Aggregator.Independence
import PoolScaling.Proofs.Autoscaler.Cycle

/-! Stopwatches.

How long an evaluation takes shows in nothing but its end at the timeout. What is timed by
another stopwatch therefore comes to the same, unless one of the two ends there: an
aggregate (`Aggregator.aggregate_timedBy`), a decision (`Pipeline.result_decide_timedBy`) and
a cycle (`Autoscaler.result_cycle_timedBy`). -/
namespace PoolScaling
open Change

variable {forecasts : Dictionary (Option Forecast)} {pool : Option PoolSize} {now : Instant}
  {stopwatch : Expr.Stopwatch}

/-! ### Aggregates -/

namespace Aggregator

/-- The aggregator with another stopwatch. -/
def timedBy (a : Aggregator) (stopwatch : Expr.Stopwatch) : Aggregator :=
  { a with engine := { a.engine with stopwatch } }

theorem aggregate_timedBy {a : Aggregator} (h : timedOut (a.aggregate forecasts now) = false)
    (h' : timedOut ((a.timedBy stopwatch).aggregate forecasts now) = false) :
    (a.timedBy stopwatch).aggregate forecasts now = a.aggregate forecasts now := by
  obtain ⟨⟨limits, before⟩, expression⟩ := a
  cases expression with
  | none => rfl
  | some text =>
    by_cases hne : forecasts = []
    · subst hne
      rfl
    · cases hpresent : present? forecasts with
      | none => simp only [aggregate, timedBy, hpresent]
      | some present =>
        have hevaluate : Expr.Engine.evaluate ⟨limits, stopwatch⟩ text (bindings present now) =
            Expr.Engine.evaluate ⟨limits, before⟩ text (bindings present now) :=
          Expr.evaluate_congr (fun _ _ => rfl) (timedOut_evaluate hne hpresent h')
            (timedOut_evaluate hne hpresent h)
        show aggregate ⟨⟨limits, stopwatch⟩, some text⟩ forecasts now = _
        rw [aggregate_of_present hne hpresent, aggregate_of_present hne hpresent, hevaluate]

end Aggregator

/-! ### Decisions -/

/-- Whether an error is the timeout of an expression. -/
def DecisionError.isTimeout : DecisionError → Bool
  | aggregation (.evaluation _ reason) => reason.isTimeout
  | _ => false

namespace Pipeline

variable {p : Pipeline} {α : Type}

/-- Whether a decision, or what is made of it, ended at the timeout. -/
def timedOut : Except (Failure DecisionError) α → Bool
  | .error (.error e) => e.isTimeout
  | _ => false

theorem timedOut_aggregation (aggregate : Except (Failure AggregationError) (Option Float)) :
    timedOut (aggregate.mapError (Failure.map .aggregation)) = Aggregator.timedOut aggregate := by
  cases aggregate with
  | ok value => rfl
  | error f =>
    cases f with
    | crash => rfl
    | error e => cases e <;> rfl

/-- The pipeline with another stopwatch. -/
def timedBy (p : Pipeline) (stopwatch : Expr.Stopwatch) : Pipeline :=
  { p with aggregator := p.aggregator.timedBy stopwatch }

theorem aggregate_timedBy (h : timedOut (p.aggregate forecasts now) = false)
    (h' : timedOut ((p.timedBy stopwatch).aggregate forecasts now) = false) :
    (p.timedBy stopwatch).aggregate forecasts now = p.aggregate forecasts now := by
  cases hunits : convert p.converter forecasts with
  | error e =>
    unfold aggregate timedBy
    rw [hunits]
    rfl
  | ok units =>
    have hunits' : convert (p.timedBy stopwatch).converter forecasts = .ok units := hunits
    rw [aggregate_of_convert hunits, timedOut_aggregation] at h
    rw [aggregate_of_convert hunits', timedOut_aggregation] at h'
    rw [aggregate_of_convert hunits, aggregate_of_convert hunits']
    exact congrArg _ (Aggregator.aggregate_timedBy h h')

/-- A decision answers what the damper does to the aggregate. -/
theorem result_decide (p : Pipeline) (forecasts : Dictionary (Option Forecast)) (pool : Option PoolSize)
    (now : Instant) :
    result (decide forecasts pool now p) =
      match p.aggregate forecasts now with
      | .error e => .error e
      | .ok aggregate =>
        (result (Damper.apply pool aggregate now p.damper)).mapError fun e => .error (.policy e) := by
  cases haggregate : p.aggregate forecasts now with
  | error e =>
    rw [decide_error haggregate]
    rfl
  | ok aggregate =>
    rw [decide_eq, haggregate, bind_ok (ofResult_ok aggregate), onDamper, onPart]
    dsimp only
    cases Damper.apply pool aggregate now p.damper <;> rfl

theorem timedOut_aggregate (h : timedOut (result (decide forecasts pool now p)) = false) :
    timedOut (p.aggregate forecasts now) = false := by
  rw [result_decide] at h
  cases haggregate : p.aggregate forecasts now with
  | error e =>
    rw [haggregate] at h
    cases e <;> exact h
  | ok aggregate => rfl

theorem result_decide_timedBy (h : timedOut (result (decide forecasts pool now p)) = false)
    (h' : timedOut (result (decide forecasts pool now (p.timedBy stopwatch))) = false) :
    result (decide forecasts pool now (p.timedBy stopwatch)) = result (decide forecasts pool now p) := by
  rw [result_decide, result_decide, aggregate_timedBy (timedOut_aggregate h) (timedOut_aggregate h')]
  rfl

end Pipeline

/-! ### Cycles -/

namespace Autoscaler

variable {a : Autoscaler}

/-- The autoscaler with another stopwatch. -/
def timedBy (a : Autoscaler) (stopwatch : Expr.Stopwatch) : Autoscaler :=
  { a with pipeline := a.pipeline.timedBy stopwatch }

/-- A cycle comes to what is made of its decision. -/
theorem result_cycle (now : Instant) (a : Autoscaler) :
    result (cycle now a) =
      (result (Pipeline.decide (gather a.forecasters a.pool now) a.pool now a.pipeline)).map
        fun demand => .ofDemand demand a.pool := by
  rw [cycle_eq]
  cases Pipeline.decide (gather a.forecasters a.pool now) a.pool now a.pipeline <;> rfl

theorem timedOut_decide (h : Pipeline.timedOut (result (cycle now a)) = false) :
    Pipeline.timedOut (result (Pipeline.decide (gather a.forecasters a.pool now) a.pool now a.pipeline)) =
      false := by
  rw [result_cycle] at h
  cases hdecide : result (Pipeline.decide (gather a.forecasters a.pool now) a.pool now a.pipeline) with
  | error e =>
    rw [hdecide] at h
    cases e <;> exact h
  | ok demand => rfl

/-- **Stopwatches.** A cycle timed by another stopwatch comes to the same, unless one of the
two ends at the timeout. -/
theorem result_cycle_timedBy (h : Pipeline.timedOut (result (cycle now a)) = false)
    (h' : Pipeline.timedOut (result (cycle now (a.timedBy stopwatch))) = false) :
    result (cycle now (a.timedBy stopwatch)) = result (cycle now a) := by
  have hdecide := Pipeline.result_decide_timedBy (timedOut_decide h) (timedOut_decide (a := a.timedBy stopwatch) h')
  rw [result_cycle, result_cycle]
  exact congrArg (Except.map fun demand => Decision.ofDemand demand a.pool) hdecide

end Autoscaler

end PoolScaling
