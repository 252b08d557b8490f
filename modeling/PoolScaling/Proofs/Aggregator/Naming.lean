import PoolScaling.Proofs.Aggregator
import PoolScaling.Proofs.Aggregator.Independence
import PoolScaling.Proofs.Expr.Calls

/-! Forecasters by their names.

Whatever a forecaster is called, an expression reaches it by its name, if the name is one
that is looked up and not one of the two that the bindings keep for themselves
(`forecaster_by_name`). A forecaster may have the name of a builtin. -/
namespace PoolScaling.Aggregator

variable {a : Aggregator} {forecasts : Dictionary (Option Forecast)} {present : Dictionary Forecast}
  {text id : String} {t : Expr.Tree} {now : Instant}

/-! ### Configured aggregators -/

/-- Whether an aggregator takes an expression, and then comes to a result. -/
def Gives (a : Aggregator) (text : String) (forecasts : Dictionary (Option Forecast)) (now : Instant)
    (result : Except (Failure AggregationError) (Option Float)) : Prop :=
  ∃ a', configure text a = .ok () a' ∧ a'.aggregate forecasts now = result

/-- What a number comes to: an aggregate, or an error if it is not finite. -/
def verdict (text : String) (x : Float) : Except (Failure AggregationError) (Option Float) :=
  if x.isFinite then .ok (some x) else .error (.error (.evaluation text (.notFinite (.number x))))

/-- A script that compiles and has a number as its value is judged by the number. -/
theorem gives_of_run {p : Expr.Program} {x : Float} (hcompile : Expr.compile text = .ok p) (hne : forecasts ≠ [])
    (hpresent : present? forecasts = some present)
    (hrun : a.engine.run text (bindings present now) = .ok (.number x)) :
    a.Gives text forecasts now (verdict text x) := by
  have hconfigure := configure_eq text a
  rw [hcompile] at hconfigure
  refine ⟨{ a with expression := some text }, hconfigure, ?_⟩
  rw [aggregate_of_present hne hpresent, Expr.Engine.evaluate_of_number hrun, verdict]
  split <;> rfl

/-! ### Records -/

theorem member_forecaster (id : String) (f : Forecast) : (record id f).member "forecaster" = .ok (.string id) := rfl

theorem member_prediction (id : String) (f : Forecast) : (record id f).member "prediction" = .ok (.number f.value) :=
  rfl

/-- The context in which an expression is aggregated. -/
def context (present : Dictionary Forecast) (now : Instant) (limits : Expr.Limits)
    (stopwatch : Expr.Stopwatch) : Expr.Context := ⟨[], bindings present now, limits, stopwatch⟩

theorem resolve_of_find? {v : Expr.Value} (h : Dictionary.find? id (bindings present now) = some v)
    (limits : Expr.Limits) (stopwatch : Expr.Stopwatch) :
    (context present now limits stopwatch).resolve id = .ok v := by
  simp only [Expr.Context.resolve, context, Dictionary.find?, h]

theorem resolve_forecaster {f : Forecast} (hinput : id ≠ "input") (hpredictions : id ≠ "predictions")
    (hfind : Dictionary.find? id present = some f) (now : Instant) (limits : Expr.Limits)
    (stopwatch : Expr.Stopwatch) : (context present now limits stopwatch).resolve id = .ok (record id f) := by
  refine resolve_of_find? ?_ limits stopwatch
  rw [find?_bindings hinput hpredictions, hfind]
  rfl

/-- **Forecasters by their names.** Among forecasts of which none is absent, a forecaster
whose id is a name that is looked up, and neither `input` nor `predictions`, can be named:
an aggregator takes `id.prediction` as its expression and comes to what the forecaster
predicts, or to an error if that is not finite; and `id.forecaster == 'id'` is true. The
engine only needs steps for four nodes, and no clock ends it. -/
theorem forecaster_by_name {value : Float} (haffords : a.engine.Affords 4)
    (hall : ∀ f ∈ forecasts, f.2.isSome = true) (hid : Expr.IsReference id) (hinput : id ≠ "input")
    (hpredictions : id ≠ "predictions") (hvalue : prediction? forecasts id = some value) (now : Instant) :
    a.Gives (id ++ ".prediction") forecasts now
      (if value.isFinite then .ok (some value)
        else .error (.error (.evaluation (id ++ ".prediction") (.notFinite (.number value))))) ∧
    ∃ present, present? forecasts = some present ∧
      a.engine.run (id ++ ".forecaster == '" ++ id ++ "'") (bindings present now) = .ok (.bool true) := by
  obtain ⟨present, hpresent, hsame⟩ := exists_present hall
  have hne : forecasts ≠ [] := by
    rintro rfl
    cases hvalue
  rw [hsame, Option.map_eq_some_iff] at hvalue
  obtain ⟨f, hfind, rfl⟩ := hvalue
  have hresolve := resolve_forecaster hinput hpredictions hfind now a.engine.limits a.engine.stopwatch
  refine ⟨?_, present, hpresent, ?_⟩
  · have hcompile := Expr.compile_member hid (by decide : Expr.isName "prediction" = true)
    have hsource : id ++ "." ++ "prediction" = id ++ ".prediction" := String.append_assoc
    rw [hsource] at hcompile
    have hrun := Expr.Engine.run_of_compile hcompile (haffords.mono (show 1 + 1 ≤ 4 by decide))
      (show 1 + 1 < Expr.clockInterval by decide) (bindings present now)
    refine gives_of_run hcompile hne hpresent (hrun.trans ?_)
    show (context present now _ _).resolve id >>= _ = _
    rw [hresolve]
    exact member_prediction id f
  · have hcompile := Expr.compile_member_equal hid (by decide : Expr.isName "forecaster" = true)
    have hsource : id ++ "." ++ "forecaster" ++ " == '" = id ++ ".forecaster == '" := by
      rw [String.append_assoc, String.append_assoc]
      rfl
    rw [hsource] at hcompile
    have hrun := Expr.Engine.run_of_compile hcompile haffords
      (show 1 + (1 + 1) + (1 + 0) < Expr.clockInterval by decide) (bindings present now)
    rw [hrun]
    show ((context present now _ _).resolve id >>= fun v => v.member "forecaster") >>= _ = _
    rw [hresolve]
    show (record id f).member "forecaster" >>= _ = _
    rw [member_forecaster]
    show Except.ok (Expr.Value.bool (id == id)) = _
    rw [beq_self_eq_true]

/-- A forecaster with the name of the builtins, beside one that is not bound by its name. -/
theorem forecaster_by_name_math :
    let forecasts : Dictionary (Option Forecast) :=
      [("Math", some ⟨2.5, .computeUnits, "", .ofSeconds 0 0⟩),
        ("input", some ⟨7.0, .computeUnits, "", .ofSeconds 0 0⟩)]
    (Aggregator.new .still).Gives "Math.prediction" forecasts (.ofSeconds 60 0) (.ok (some 2.5)) ∧
      ∃ present, present? forecasts = some present ∧
        (Expr.Engine.standard .still).run "Math.forecaster == 'Math'" (bindings present (.ofSeconds 60 0)) =
          .ok (.bool true) := by
  intro forecasts
  have haffords : (Aggregator.new .still).engine.Affords 4 := Expr.Engine.affords_standard .still (by decide)
  obtain ⟨hgives, hrun⟩ := forecaster_by_name haffords (by decide : ∀ f ∈ forecasts, f.2.isSome = true)
    (⟨by decide, by decide⟩ : Expr.IsReference "Math") (by decide) (by decide)
    (rfl : prediction? forecasts "Math" = some 2.5) (.ofSeconds 60 0)
  rw [if_pos (by decide +kernel)] at hgives
  exact ⟨hgives, hrun⟩

end PoolScaling.Aggregator
