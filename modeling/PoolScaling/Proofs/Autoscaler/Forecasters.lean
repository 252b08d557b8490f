import PoolScaling.Proofs.Autoscaler.Callback
import PoolScaling.Proofs.Forecaster

/-! Forecasters of an autoscaler.

A cycle sees its forecasters through the forecasts that it gathers. So autoscalers that
differ in their forecasters alone, and not in the last of any id, run in lockstep
(`runs_by_last_forecasters`), whatever becomes of the pool and of the pipeline between
the cycles. -/
namespace PoolScaling
open Change Forecaster

variable {fs gs : List Forecaster}

/-! ### Runs -/

/-- The time up to a cycle: what others make of the pool and the pipeline meanwhile, and
when it is over. -/
structure Interval where
  meanwhile : Option PoolSize × Pipeline → Option PoolSize × Pipeline
  now : Instant

namespace Autoscaler

variable {a b : Autoscaler}

/-- The autoscaler with other forecasters. -/
def serving (a : Autoscaler) (fs : List Forecaster) : Autoscaler := { a with forecasters := fs }

/-- A cycle at the end of an interval. -/
def cycleAfter (i : Interval) : Change Autoscaler (Failure DecisionError) Decision := do
  modify fun a =>
    let (pool, pipeline) := i.meanwhile (a.pool, a.pipeline)
    { a with pool, pipeline }
  cycle i.now

/-- Whether an autoscaler runs with the forecasters `gs` as with the forecasters `fs`: every
cycle comes to the same, and so do the callback, the pool, the clock and the pipeline with
its trackers. -/
def RunsAlike (a : Autoscaler) (fs gs : List Forecaster) : Prop :=
  ∀ (intervals : List Interval) (n : Nat),
    attempts cycleAfter intervals (a.serving gs) =
      ((attempts cycleAfter intervals (a.serving fs)).1, (attempts cycleAfter intervals (a.serving fs)).2.serving gs) ∧
    outcomes n (a.serving gs) = outcomes n (a.serving fs) ∧
    result (wakeTimes n (a.serving gs)) = result (wakeTimes n (a.serving fs)) ∧
    stateOf (wakeTimes n (a.serving gs)) = (stateOf (wakeTimes n (a.serving fs))).serving gs

/-- Whether `b` is `a` with the forecasters `gs` in place of `fs`. -/
def Swapped (fs gs : List Forecaster) (a b : Autoscaler) : Prop := a.forecasters = fs ∧ b = a.serving gs

theorem carryOut_serving (a : Autoscaler) (fs : List Forecaster) (decision : Decision) :
    (a.serving fs).carryOut decision = (a.carryOut decision).serving fs := by
  cases decision with
  | noChange => rfl
  | scaleTo target => cases h : a.resize <;> simp [carryOut, serving, h]

theorem carryOut_forecasters (a : Autoscaler) (decision : Decision) :
    (a.carryOut decision).forecasters = a.forecasters := by
  cases decision with
  | noChange => rfl
  | scaleTo target => cases h : a.resize <;> simp [carryOut, h]

theorem cycle_swapped (h : served fs = served gs) (now : Instant) :
    Lockstep (Swapped fs gs) (cycle now) (cycle now) := by
  intro a b hswapped
  obtain ⟨rfl, rfl⟩ := hswapped
  have hgather : gather (a.serving gs).forecasters (a.serving gs).pool now = gather a.forecasters a.pool now :=
    (gather_congr h a.pool now).symm
  have hdecide : Pipeline.decide (gather (a.serving gs).forecasters (a.serving gs).pool now)
      (a.serving gs).pool now (a.serving gs).pipeline =
        Pipeline.decide (gather a.forecasters a.pool now) a.pool now a.pipeline := by
    rw [hgather]
    rfl
  rw [cycle_eq, cycle_eq, hdecide]
  cases Pipeline.decide (gather a.forecasters a.pool now) a.pool now a.pipeline with
  | ok demand pipeline =>
    exact ⟨rfl, carryOut_forecasters _ _, carryOut_serving { a with pipeline } gs _⟩
  | error e pipeline => exact ⟨rfl, rfl, rfl⟩

theorem cycleAfter_swapped (h : served fs = served gs) (i : Interval) :
    Lockstep (Swapped fs gs) (cycleAfter i) (cycleAfter i) := by
  intro a b hswapped
  obtain ⟨rfl, rfl⟩ := hswapped
  exact cycle_swapped h i.now _ _ ⟨rfl, rfl⟩

theorem timed_swapped (h : served fs = served gs) : Lockstep (Swapped fs gs) timed timed := by
  refine timed_of_cycle (cycle_swapped h) ?_ ?_
  · intro a b hswapped
    obtain ⟨-, rfl⟩ := hswapped
    rfl
  · intro a b clock hswapped
    obtain ⟨hfs, rfl⟩ := hswapped
    exact ⟨hfs, rfl⟩

theorem runsAlike_of_served (h : served fs = served gs) (a : Autoscaler) : a.RunsAlike fs gs := by
  intro intervals n
  have hswapped : Swapped fs gs (a.serving fs) (a.serving gs) := ⟨rfl, rfl⟩
  obtain ⟨hanswers, -, hlast⟩ := Lockstep.attempts (cycleAfter_swapped h) intervals hswapped
  obtain ⟨hresult, -, hstate⟩ := wakeTimes_of_timed (timed_swapped h) n _ _ hswapped
  exact ⟨Prod.ext hanswers.symm hlast, (outcomes_of_timed (timed_swapped h) n hswapped).symm, hresult.symm, hstate⟩

/-- **Only the last forecaster of each id matters.** Cycles one after another, with anything
done to the pool and the pipeline between them, and cycles of the loop go the same way with
two lists of forecasters, if the last ones of every id have the same forecasts in them; one
that fails counts as one without a forecast. So the order of forecasters with distinct ids
does not matter, nor do those with a later one of the same id, nor whether a forecaster
fails, now and then or always, or is absent. -/
theorem runs_by_last_forecasters (a : Autoscaler) :
    (∀ fs gs, served fs = served gs → a.RunsAlike fs gs) ∧
    (∀ fs gs, (fs.map Forecaster.id).Nodup → fs.Perm gs → a.RunsAlike fs gs) ∧
    (∀ fs, (latest fs).Sublist fs ∧ ((latest fs).map Forecaster.id).Nodup ∧ a.RunsAlike fs (latest fs)) ∧
    (∀ before f after, (∀ pool now, ∃ e, f.predict pool now = .error e) →
      a.RunsAlike (before ++ f :: after) (before ++ .absent f.id :: after)) ∧
    ∀ fs, a.RunsAlike fs (fs.map calm) := by
  refine ⟨fun fs gs h => runsAlike_of_served h a, ?perm, ?latest, ?absent, ?calm⟩
  case perm => exact fun fs gs hnodup hperm => runsAlike_of_served (served_of_perm hnodup hperm) a
  case latest =>
    exact fun fs => ⟨latest_sublist fs, nodup_latest fs, runsAlike_of_served (served_latest fs).symm a⟩
  case absent =>
    intro before f after hfails
    have hreplace : served (before ++ .absent f.id :: after) = served (before ++ f :: after) :=
      served_replace rfl (forecast_absent hfails)
    exact runsAlike_of_served hreplace.symm a
  case calm => exact fun fs => runsAlike_of_served (served_calm fs).symm a

/-- A difference of two predictions is that of the ids in their order, whoever was added first
and whatever was added before under the same id; it is held back for a minute. -/
theorem runs_by_last_forecasters_held_back :
    let a : Autoscaler := { fresh ⟨"predictions[0] - predictions[1]", [], ⟨0.5, .ofSeconds 60⟩⟩ with
      resize := some .accept, pool := some ⟨10, 10⟩ }
    let intervals : List Interval := [⟨id, .ofSeconds 0 0⟩, ⟨id, .ofSeconds 60 0⟩]
    let fs : List Forecaster := [.computeUnits "b" 3.0, .computeUnits "a" 7.0]
    (∀ gs ∈ [fs, fs.reverse, .computeUnits "a" 9.0 :: fs],
      (attempts cycleAfter intervals (a.serving gs)).2.requests = [4]) ∧
    (attempts cycleAfter intervals (a.serving (fs ++ [.absent "c"]))).1 =
      (attempts cycleAfter intervals (a.serving (fs ++ [.failing "c" "no model"]))).1 := by
  intro a intervals fs
  have hrequests : (attempts cycleAfter intervals (a.serving fs)).2.requests = [4] := by decide +kernel
  have hlike : ∀ gs, a.RunsAlike fs gs → (attempts cycleAfter intervals (a.serving gs)).2.requests = [4] := by
    intro gs h
    rw [(h intervals 0).1]
    exact hrequests
  obtain ⟨hserved, hperm, -, habsent, -⟩ := runs_by_last_forecasters a
  refine ⟨fun gs hgs => ?_, ?_⟩
  · simp only [List.mem_cons, List.not_mem_nil, or_false] at hgs
    rcases hgs with rfl | rfl | rfl
    · exact hrequests
    · exact hlike _ (hperm fs fs.reverse (by decide) (List.reverse_perm fs).symm)
    · exact hlike _ (hserved fs (.computeUnits "a" 9.0 :: fs) (served_latest (.computeUnits "a" 9.0 :: fs)))
  · have hid : (Forecaster.failing "c" "no model").id = "c" := rfl
    have hfails := habsent fs (.failing "c" "no model") [] fun _ _ => ⟨_, rfl⟩
    rw [hid] at hfails
    rw [(hfails intervals 0).1]

end Autoscaler

end PoolScaling
