import PoolScaling.Proofs.Expr.Crash
import PoolScaling.Proofs.Pipeline.Reconfiguration
import PoolScaling.Proofs.Policy.Running

/-! Damped decisions.

A decision aggregates forecasts and damps the aggregate (`decide_eq`), which is a finite
number or absent (`isFinite_of_aggregate`). Whatever a pipeline has been asked before,
its damper is new or runs an accepted damping (`used_after`), so an aggregate is always
damped by a signal and a tracker (`decide_running`). -/
namespace PoolScaling

theorem Aggregator.isFinite_of_aggregate {a : Aggregator} {forecasts : Dictionary (Option Forecast)}
    {now : Instant} {c : Float} (h : a.aggregate forecasts now = .ok (some c)) : c.isFinite = true := by
  unfold Aggregator.aggregate at h
  split at h
  · cases h
  · split at h
    · cases h
    · split at h
      · cases h
      · split at h
        · rename_i hvalue
          cases h
          exact Expr.isFinite_of_evaluate hvalue
        · cases h

namespace Pipeline

variable {p : Pipeline} {forecasts : Dictionary (Option Forecast)} {pool : Option PoolSize} {now : Instant}

/-! ### Aggregates -/

/-- What a decision on forecasts damps. -/
def aggregate (p : Pipeline) (forecasts : Dictionary (Option Forecast)) (now : Instant) :
    Except (Failure DecisionError) (Option Float) := do
  let units ← (convert p.converter forecasts).mapError .error
  (p.aggregator.aggregate units now).mapError (Failure.map .aggregation)

theorem decide_eq (p : Pipeline) (forecasts : Dictionary (Option Forecast)) (pool : Option PoolSize)
    (now : Instant) :
    decide forecasts pool now p =
      (Change.ofResult (p.aggregate forecasts now) >>= fun aggregate =>
        onDamper (fun e => .error (.policy e)) (Damper.apply pool aggregate now)) p := by
  unfold decide aggregate
  rw [get_bind, Change.ofResult_bind, bind_assoc]

theorem decide_error {e : Failure DecisionError} (h : p.aggregate forecasts now = .error e) :
    decide forecasts pool now p = .error e p := by
  rw [decide_eq, h]
  exact bind_error rfl

theorem decide_of_apply {aggregate answer : Option Float} {damper : Damper}
    (h : p.aggregate forecasts now = .ok aggregate)
    (happly : Damper.apply pool aggregate now p.damper = .ok answer damper) :
    decide forecasts pool now p = .ok answer { p with damper } := by
  rw [decide_eq, h, bind_ok (Change.ofResult_ok aggregate)]
  exact Change.onPart_ok happly

theorem aggregate_of_convert {units : Dictionary (Option Forecast)}
    (h : convert p.converter forecasts = .ok units) :
    p.aggregate forecasts now = (p.aggregator.aggregate units now).mapError (Failure.map .aggregation) := by
  rw [aggregate, h]
  rfl

theorem isFinite_of_aggregate {c : Float} (h : p.aggregate forecasts now = .ok (some c)) :
    c.isFinite = true := by
  cases hunits : convert p.converter forecasts with
  | error e =>
    rw [aggregate, hunits] at h
    cases h
  | ok units =>
    rw [aggregate_of_convert hunits] at h
    cases haggregate : p.aggregator.aggregate units now with
    | error e =>
      rw [haggregate] at h
      cases h
    | ok value =>
      rw [haggregate] at h
      cases h
      exact Aggregator.isFinite_of_aggregate haggregate

/-! ### Dampers of pipelines -/

theorem used_perform (h : Damper.Used p.damper) (o : Operation) : Damper.Used (p.perform o).damper := by
  cases o with
  | configure c =>
    cases hc : validate c with
    | ok =>
      obtain ⟨table, hconfigure⟩ := configure_of_validate hc
      rw [perform, hconfigure p]
      exact .running c.damping .idle ((validate_eq_ok c).mp hc).2.2
    | error e =>
      rw [perform, configure_of_error hc]
      exact h
  | configureConverter mappings =>
    rw [perform, onConverter, Change.stateOf_onPart]
    exact h
  | configureAggregator expression =>
    rw [perform, onAggregator, Change.stateOf_onPart]
    exact h
  | configureDamper d =>
    rw [perform, onDamper, Change.stateOf_onPart]
    exact h.perform (.configure d)
  | decide forecasts pool now =>
    rw [perform]
    cases haggregate : p.aggregate forecasts now with
    | error e =>
      rw [decide_error haggregate]
      exact h
    | ok aggregate =>
      rw [decide_eq, haggregate, bind_ok (Change.ofResult_ok aggregate), onDamper, Change.stateOf_onPart]
      exact h.perform (.apply ⟨pool, aggregate, now⟩)

/-- Whatever a new pipeline has been asked, its damper is new or runs an accepted damping. -/
theorem used_after (stopwatch : Expr.Stopwatch) (history : List Operation) :
    Damper.Used ((new stopwatch).after history).damper := by
  suffices h : ∀ p : Pipeline, Damper.Used p.damper → Damper.Used (p.after history).damper from
    h (new stopwatch) .new
  induction history with
  | nil => exact fun p h => h
  | cons o history ih => exact fun p h => ih (p.perform o) (used_perform h o)

theorem decide_new {aggregate : Option Float} (h : p.aggregate forecasts now = .ok aggregate)
    (hp : p.damper = .new) :
    decide forecasts pool now p = .error (.error (.policy .notConfigured)) p := by
  rw [decide_eq, h, bind_ok (Change.ofResult_ok aggregate)]
  have happly : Damper.apply pool aggregate now p.damper = .error .notConfigured p.damper := by
    rw [hp]
    rfl
  exact Change.onPart_error happly

theorem decide_running {aggregate : Option Float} {d : Damping} {t : Tracker} (pool : Option PoolSize)
    (h : p.aggregate forecasts now = .ok aggregate) (hd : d.validate = .ok ()) (hp : p.damper = .running d t) :
    ∃ t', decide forecasts pool now p =
      .ok ((Reading.mk pool aggregate now).answer d (d.passes t now)) { p with damper := .running d t' } := by
  have happly := Damper.apply_running hd t ⟨pool, aggregate, now⟩
  rw [← hp] at happly
  exact ⟨_, decide_of_apply h happly⟩

end Pipeline

end PoolScaling
