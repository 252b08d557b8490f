import PoolScaling.Aggregator
import PoolScaling.Proofs.Expr.Names

/-! What an aggregate depends on.

An expression that names neither `input` nor `predictions` sees of the forecasts only the
values of the forecasters it names (`find?_bindings`). So nothing else has an influence on
the aggregate: not the other forecasters, nor scales, metrics and times
(`aggregate_congr`). -/
namespace PoolScaling.Aggregator

variable {forecasts : Dictionary (Option Forecast)} {present present' : Dictionary Forecast} {x : String}

/-- The value that a forecaster predicts, if it is there and has a forecast. -/
def prediction? (forecasts : Dictionary (Option Forecast)) (id : String) : Option Float :=
  (Dictionary.find? id forecasts).bind fun f => f.map Forecast.value

/-- Whether an aggregation ended at the timeout of its expression. -/
def timedOut : Except (Failure AggregationError) (Option Float) → Bool
  | .error (.error (.evaluation _ reason)) => reason.isTimeout
  | _ => false

/-- When no forecast is absent, all are there. -/
theorem exists_present (h : ∀ f ∈ forecasts, f.2.isSome = true) :
    ∃ present, present? forecasts = some present ∧
      ∀ id, prediction? forecasts id = (Dictionary.find? id present).map Forecast.value := by
  induction forecasts with
  | nil => exact ⟨[], rfl, fun _ => rfl⟩
  | cons first rest ih =>
    obtain ⟨id, f⟩ := first
    obtain ⟨hfirst, hrest⟩ := List.forall_mem_cons.mp h
    obtain ⟨present, hpresent, hpredictions⟩ := ih hrest
    obtain ⟨f, rfl⟩ := Option.isSome_iff_exists.mp hfirst
    refine ⟨(id, f) :: present, by rw [present?, hpresent]; rfl, fun k => ?_⟩
    rw [prediction?, Dictionary.find?, Dictionary.find?]
    split
    · rfl
    · exact hpredictions k

/-- A name that is not reserved is bound to the record of its forecaster. -/
theorem find?_bindings (hinput : x ≠ "input") (hpredictions : x ≠ "predictions") (now : Instant) :
    Dictionary.find? x (bindings present now) = (Dictionary.find? x present).map (record x) := by
  show Dictionary.find? x (Dictionary.insert "predictions" _ (Dictionary.insert "input" _ _)) = _
  rw [Dictionary.find?_insert, if_neg hpredictions, Dictionary.find?_insert, if_neg hinput, Dictionary.find?_map]

/-- Of a forecast, only the value shows. -/
theorem find?_bindings_congr (hinput : x ≠ "input") (hpredictions : x ≠ "predictions")
    (h : (Dictionary.find? x present).map Forecast.value = (Dictionary.find? x present').map Forecast.value)
    (now now' : Instant) :
    Dictionary.find? x (bindings present now) = Dictionary.find? x (bindings present' now') := by
  have hrecord : record x = (fun value => .ofFields [("forecaster", .string x), ("prediction", .number value)]) ∘
      Forecast.value := rfl
  rw [find?_bindings hinput hpredictions, find?_bindings hinput hpredictions, hrecord, ← Option.map_map, h,
    Option.map_map]

theorem aggregate_of_present (hne : forecasts ≠ []) (hpresent : present? forecasts = some present)
    (engine : Expr.Engine) (text : String) (now : Instant) :
    aggregate ⟨engine, some text⟩ forecasts now =
      ((engine.evaluate text (bindings present now)).map some).mapError (Failure.map (.evaluation text)) := by
  have hempty : ¬ forecasts.isEmpty = true := by simpa using hne
  simp only [aggregate, if_neg hempty, hpresent]
  cases engine.evaluate text (bindings present now) <;> rfl

theorem timedOut_evaluate {engine : Expr.Engine} {text : String} {now : Instant} (hne : forecasts ≠ [])
    (hpresent : present? forecasts = some present)
    (h : timedOut (aggregate ⟨engine, some text⟩ forecasts now) = false) :
    Expr.timedOut (engine.evaluate text (bindings present now)) = false := by
  rw [aggregate_of_present hne hpresent] at h
  cases hevaluate : engine.evaluate text (bindings present now) with
  | ok value => rfl
  | error f =>
    rw [hevaluate] at h
    cases f <;> exact h

/-- **Only what is named matters.** Two lots of forecasts, neither empty nor with one absent,
have the same aggregate or the same failure, if the expression names neither `input` nor
`predictions` and every forecaster it names predicts the same in both or is in neither. The
times may differ, and the clocks as long as no timeout is reached. -/
theorem aggregate_congr {text : String} {forecasts forecasts' : Dictionary (Option Forecast)}
    {limits : Expr.Limits} {stopwatch stopwatch' : Expr.Stopwatch} {now now' : Instant}
    (hreserved : ∀ x ∈ Expr.namesIn text, x ≠ "input" ∧ x ≠ "predictions")
    (hne : forecasts ≠ []) (hne' : forecasts' ≠ [])
    (hpresent : ∀ f ∈ forecasts, f.2.isSome = true) (hpresent' : ∀ f ∈ forecasts', f.2.isSome = true)
    (hsame : ∀ x ∈ Expr.namesIn text, prediction? forecasts x = prediction? forecasts' x)
    (htime : timedOut (aggregate ⟨⟨limits, stopwatch⟩, some text⟩ forecasts now) = false)
    (htime' : timedOut (aggregate ⟨⟨limits, stopwatch'⟩, some text⟩ forecasts' now') = false) :
    aggregate ⟨⟨limits, stopwatch⟩, some text⟩ forecasts now =
      aggregate ⟨⟨limits, stopwatch'⟩, some text⟩ forecasts' now' := by
  obtain ⟨present, hall, hprediction⟩ := exists_present hpresent
  obtain ⟨present', hall', hprediction'⟩ := exists_present hpresent'
  have hbindings : ∀ x ∈ Expr.namesIn text,
      Dictionary.find? x (bindings present now) = Dictionary.find? x (bindings present' now') := by
    intro x hx
    obtain ⟨hinput, hpredictions⟩ := hreserved x hx
    refine find?_bindings_congr hinput hpredictions ?_ now now'
    rw [← hprediction, ← hprediction', hsame x hx]
  have hevaluate : Expr.Engine.evaluate ⟨limits, stopwatch⟩ text (bindings present now) =
      Expr.Engine.evaluate ⟨limits, stopwatch'⟩ text (bindings present' now') :=
    Expr.evaluate_congr hbindings (timedOut_evaluate hne hall htime) (timedOut_evaluate hne' hall' htime')
  rw [aggregate_of_present hne hall, aggregate_of_present hne' hall', hevaluate]

/-- An expression that names `a`, a builtin and a local does not tell apart two lots of
forecasts that differ in scale, metric, time and another forecaster. -/
theorem aggregate_congr_one_forecaster :
    let a : Aggregator := ⟨.standard .still, some "let x = max(a.prediction, 2); x + 1"⟩
    let forecasts : Dictionary (Option Forecast) := [("a", some ⟨2.5, .computeUnits, "", .ofSeconds 60 0⟩)]
    let forecasts' : Dictionary (Option Forecast) :=
      [("a", some ⟨2.5, .metric, "load", .ofSeconds 0 0⟩), ("b", some ⟨7.0, .computeUnits, "", .ofSeconds 90 0⟩)]
    a.aggregate forecasts (.ofSeconds 60 0) = a.aggregate forecasts' (.ofSeconds 120 0) ∧
      (a.aggregate forecasts (.ofSeconds 60 0)).isOk = true := by
  intro a forecasts forecasts'
  have hnames : Expr.namesIn "let x = max(a.prediction, 2); x + 1" = ["max", "a", "x"] := by decide +kernel
  have hreserved : ∀ x ∈ ["max", "a", "x"], x ≠ "input" ∧ x ≠ "predictions" := by decide
  have hsame : ∀ x ∈ ["max", "a", "x"], prediction? forecasts x = prediction? forecasts' x := by
    intro x hx
    simp only [List.mem_cons, List.not_mem_nil, or_false] at hx
    rcases hx with rfl | rfl | rfl <;> rfl
  rw [← hnames] at hreserved hsame
  exact ⟨aggregate_congr hreserved (List.cons_ne_nil _ _) (List.cons_ne_nil _ _) (by decide) (by decide) hsame
    (by decide +kernel) (by decide +kernel), by decide +kernel⟩

end PoolScaling.Aggregator
