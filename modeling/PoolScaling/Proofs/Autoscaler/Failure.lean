import PoolScaling.Proofs.Autoscaler.Cycle
import PoolScaling.Proofs.Pipeline.Failure

/-! Failed cycles.

A cycle can only fail in its decision, before it hands anything on. So failed cycles of
an autoscaler leave no trace either, and a run without them is the run of the others
(`failures_leave_no_trace`). -/
namespace PoolScaling
open Change

/-! ### Cycles of an autoscaler -/

namespace Autoscaler

theorem cycle_traceless (now : Instant) : Traceless (cycle now) := by
  refine Traceless.get_bind fun a => ?_
  refine Traceless.bind_ok ?_ fun demand a' => ?_
  · exact (Pipeline.decide_traceless _ _ now).onPart fun _ => rfl
  · cases Decision.ofDemand demand a.pool with
    | noChange => exact ⟨_, _, rfl⟩
    | scaleTo target => exact ⟨_, _, rfl⟩

/-- Waking up to a cycle that reports an error only moves the clock. -/
theorem wake_of_error {a a' : Autoscaler} {now : Instant} {clock : Clock} {e : DecisionError}
    (hclock : a.clock.read = (some now, clock))
    (hcycle : cycle now { a with clock } = .error (.error e) a') : wake a = .ok () { a with clock } := by
  cases cycle_traceless now _ _ _ hcycle
  rw [wake_eq, timed_of_read hclock, hcycle]
  rfl

end Autoscaler

/-! ### Runs without the failures -/

/-- **A failed decision leaves no trace.** The pipeline is what it was before, whatever
has failed. So a run of decisions, or of cycles, without those that fail gives the other
answers and leads to the same state. A forecast that cannot be converted is the error
exactly when it is the first such in the order of the ids. -/
theorem failures_leave_no_trace :
    (∀ forecasts pool now p e p', Pipeline.decide forecasts pool now p = .error e p' → p' = p) ∧
    (∀ requests p,
      attempts Pipeline.answer (succeeding Pipeline.answer requests p) p =
        ((attempts Pipeline.answer requests p).1.filter Except.isOk,
          (attempts Pipeline.answer requests p).2)) ∧
    (∀ times a,
      attempts Autoscaler.cycle (succeeding Autoscaler.cycle times a) a =
        ((attempts Autoscaler.cycle times a).1.filter Except.isOk,
          (attempts Autoscaler.cycle times a).2)) ∧
    ∀ forecasts pool now p p' id reason, Dictionary.Ordered forecasts →
      (Pipeline.decide forecasts pool now p = .error (.error (.capacity id reason)) p' ↔
        (∃ f, (id, f) ∈ forecasts ∧ p.converter.convert f = .error reason ∧
          ∀ id' f', (id', f') ∈ forecasts → id' < id → ∃ units, p.converter.convert f' = .ok units) ∧
        p' = p) := by
  refine ⟨Pipeline.decide_traceless, ?decisions, ?cycles, ?conversion⟩
  case decisions =>
    exact attempts_succeeding fun r => Pipeline.decide_traceless r.forecasts r.pool r.now
  case cycles => exact attempts_succeeding Autoscaler.cycle_traceless
  case conversion =>
    intro forecasts pool now p p' id reason hordered
    rw [Pipeline.decide_eq_capacity_iff, Pipeline.convert_eq_capacity_iff_of_ordered hordered]

/-- Of an absent forecast, one of a metric without a rate and a negative one, the second
is the error, and a grace tracker that is running keeps running. -/
theorem second_of_three_forecasts_fails :
    let p : Pipeline := ⟨⟨some ⟨[⟨"rps", 100.0⟩], ⟨[("rps", 100.0)]⟩⟩⟩, ⟨.standard .still, some "1"⟩,
      ⟨some ⟨⟨0.0, .ofSeconds 60⟩, [.grace (.ofSeconds 60) (.since (.ofSeconds 0 0))]⟩⟩⟩
    let forecasts : Dictionary (Option Forecast) :=
      [("a", none), ("b", some ⟨1.0, .metric, "latency", .ofSeconds 0 0⟩),
        ("c", some ⟨-1.0, .metric, "rps", .ofSeconds 0 0⟩)]
    Dictionary.Ordered forecasts ∧
      Pipeline.decide forecasts none (.ofSeconds 9 0) p =
        .error (.error (.capacity "b" (.unmapped "latency"))) p ∧
      ∀ e p', Pipeline.decide forecasts none (.ofSeconds 9 0) p = .error e p' → p' = p := by
  intro p forecasts
  have hordered : Dictionary.Ordered forecasts := by
    unfold Dictionary.Ordered forecasts
    decide
  have hsmaller : ∀ id' f', (id', f') ∈ forecasts → id' < "b" →
      ∃ units, p.converter.convert f' = .ok units := by
    intro id' f' hmem hlt
    simp only [forecasts, List.mem_cons, Prod.mk.injEq, List.not_mem_nil, or_false] at hmem
    rcases hmem with ⟨rfl, rfl⟩ | ⟨rfl, rfl⟩ | ⟨rfl, rfl⟩
    · exact ⟨none, rfl⟩
    · exact absurd hlt (by decide)
    · exact absurd hlt (by decide)
  refine ⟨hordered, ?_, fun e p' => failures_leave_no_trace.1 forecasts none _ p e p'⟩
  have hfirst : p.converter.convert (some ⟨1.0, .metric, "latency", .ofSeconds 0 0⟩) =
      .error (.unmapped "latency") := rfl
  exact (failures_leave_no_trace.2.2.2 forecasts none _ p p "b" _ hordered).mpr
    ⟨⟨_, List.mem_cons_of_mem _ List.mem_cons_self, hfirst, hsmaller⟩, rfl⟩

end PoolScaling
