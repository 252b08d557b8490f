import PoolScaling.Proofs.Aggregator.Naming
import PoolScaling.Proofs.Text.Utf8

/-! Views of the forecasts.

An expression sees the forecasts as records under their ids, as a list of records and as a
list of values. All follow the order of the ids, which is that of their bytes, and none
leaves a forecaster out, whatever it is called; only the names `input` and `predictions`
are not bound to records (`views_agree`). -/
namespace PoolScaling.Aggregator

variable {forecasts : Dictionary (Option Forecast)} {present : Dictionary Forecast} {x field : String}
  {now : Instant} {limits : Expr.Limits} {stopwatch : Expr.Stopwatch}

/-- What is there is all that was given. -/
theorem eq_map_of_present (h : present? forecasts = some present) :
    forecasts = present.map fun p => (p.1, some p.2) := by
  induction forecasts generalizing present with
  | nil =>
    cases h
    rfl
  | cons first rest ih =>
    obtain ⟨id, f⟩ := first
    cases f with
    | none => cases h
    | some f =>
      cases hrest : present? rest with
      | none =>
        rw [present?, hrest] at h
        cases h
      | some others =>
        rw [present?, hrest] at h
        cases h
        rw [ih hrest]
        rfl

theorem keys_of_present (h : present? forecasts = some present) :
    Dictionary.keys forecasts = Dictionary.keys present := by
  rw [eq_map_of_present h, Dictionary.keys, List.map_map]
  rfl

/-! ### Names -/

theorem find?_bindings_input (present : Dictionary Forecast) (now : Instant) :
    Dictionary.find? "input" (bindings present now) = some (input present now) := by
  show Dictionary.find? "input" (Dictionary.insert "predictions" _ (Dictionary.insert "input" _ _)) = _
  rw [Dictionary.find?_insert, if_neg (by decide), Dictionary.find?_insert, if_pos rfl]

/-- What an expression sees of all values. -/
def values (present : Dictionary Forecast) : List Expr.Value := present.map fun p => .number p.2.value

theorem find?_bindings_predictions (present : Dictionary Forecast) (now : Instant) :
    Dictionary.find? "predictions" (bindings present now) = some (.array (values present)) := by
  show Dictionary.find? "predictions" (Dictionary.insert "predictions" _ _) = _
  rw [Dictionary.find?_insert, if_pos rfl]
  rfl

/-- What an expression sees of all records. -/
def records (present : Dictionary Forecast) : List Expr.Value := present.map fun p => record p.1 p.2

theorem member_input (present : Dictionary Forecast) (now : Instant) :
    (input present now).member "predictions" = .ok (.array (records present)) := rfl

theorem evalItems_predictions (present : Dictionary Forecast) (now : Instant) :
    Expr.Nested.evalItems (context present now limits stopwatch) [.name "predictions"] =
      .ok [.array (values present)] := by
  rw [Expr.Nested.evalItems, Expr.Nested.eval, resolve_of_find? (find?_bindings_predictions present now)]
  rfl

/-- A builtin has its name unless a forecaster has it. -/
theorem resolve_builtin {b : Expr.Builtin} (hbuiltin : Expr.Builtin.ofName? x = some b)
    (hmath : x ≠ "Math") (hinput : x ≠ "input") (hpredictions : x ≠ "predictions") (h : x ∉ Dictionary.keys present) :
    (context present now limits stopwatch).resolve x = .ok (.builtin b) := by
  have hunbound : Dictionary.find? x (bindings present now) = none := by
    rw [find?_bindings hinput hpredictions, Dictionary.find?_eq_none h]
    rfl
  simp only [Expr.Context.resolve, context, Dictionary.find?, hunbound, if_neg hmath, hbuiltin]

/-! ### Columns -/

/-- A field that all records have is a column. -/
theorem pluck_records {column : String × Forecast → Expr.Value}
    (h : ∀ p, (record p.1 p.2).member field = .ok (column p)) (present : Dictionary Forecast) :
    Expr.Builtin.pluck.call [.array (records present), .string field] = .ok (.array (present.map column)) := by
  have hcolumn : Expr.Builtin.pluckFrom field (records present) = .ok (present.map column) := by
    rw [Expr.Builtin.pluckFrom, records, List.mapM_map]
    have hpure : (fun p => (record p.1 p.2).member field) = fun p : String × Forecast => pure (column p) := funext h
    refine Eq.trans (congrFun (congrArg List.mapM hpure) present) ?_
    exact List.mapM_pure
  show Expr.Builtin.pluckFrom field (records present) >>= _ = _
  rw [hcolumn]
  rfl

/-! ### Scripts -/

theorem writes_predictions : Expr.Writes "predictions" [.name "predictions"] 0 1 (.name "predictions") :=
  .name ⟨by decide, by decide⟩

theorem writes_records : Expr.Writes "input.predictions" [.name "input", .mark .dot, .name "predictions"] 1 2
    (.member (.name "input") "predictions") := by
  have hinput : Expr.Writes "input" [.name "input"] 0 1 (.name "input") := .name ⟨by decide, by decide⟩
  exact hinput.member (by decide : Expr.isName "predictions" = true)

theorem compile_count : Expr.compile "count(predictions)" =
    .ok (Expr.Tree.call (.name "count") [.name "predictions"]).program := by
  have hcount : Expr.Writes "count" [.name "count"] 0 1 (.name "count") := .name ⟨by decide, by decide⟩
  exact (hcount.call writes_predictions.last).compile (by decide)

/-- A column of the records, as an expression. -/
def pluckTree (field : String) : Expr.Tree :=
  .call (.name "pluck") [.member (.name "input") "predictions", .string field]

theorem compile_pluck (hfield : Expr.isName field = true) :
    Expr.compile ("pluck(input.predictions, '" ++ field ++ "')") = .ok (pluckTree field).program := by
  have hname : Expr.Writes "pluck" [.name "pluck"] 0 1 (.name "pluck") := .name ⟨by decide, by decide⟩
  have hpluck := (hname.call (writes_records.cons (Expr.Writes.quoted hfield).last)).compile (by decide)
  have hopen : "pluck(input.predictions, '" = "pluck" ++ "(" ++ ("input.predictions" ++ ", " ++ "'") := rfl
  have hclose : "')" = "'" ++ ")" := rfl
  rw [hopen, hclose]
  simp only [String.append_assoc] at hpluck ⊢
  exact hpluck

variable {e : Expr.Engine}

theorem run_predictions (h : e.Affords 1) (present : Dictionary Forecast) (now : Instant) :
    e.run "predictions" (bindings present now) = .ok (.array (values present)) := by
  rw [Expr.Engine.run_of_compile (writes_predictions.compile (by decide)) h (show 1 < Expr.clockInterval by decide)]
  exact resolve_of_find? (find?_bindings_predictions present now) e.limits e.stopwatch

/-- The records, as an expression reads them. -/
theorem eval_records (present : Dictionary Forecast) (now : Instant) :
    (Expr.Nested.member (.name "input") "predictions").eval (context present now limits stopwatch) =
      .ok (.array (records present)) := by
  rw [Expr.Nested.eval, Expr.Nested.eval, resolve_of_find? (find?_bindings_input present now)]
  exact member_input present now

theorem run_records (h : e.Affords 2) (present : Dictionary Forecast) (now : Instant) :
    e.run "input.predictions" (bindings present now) = .ok (.array (records present)) := by
  rw [Expr.Engine.run_of_compile (writes_records.compile (by decide)) h (show 1 + 1 < Expr.clockInterval by decide)]
  exact eval_records present now

theorem run_count (h : e.Affords 3) (hcount : "count" ∉ Dictionary.keys present) (now : Instant) :
    e.run "count(predictions)" (bindings present now) = .ok (.number (Float.ofNat present.length)) := by
  rw [Expr.Engine.run_of_compile compile_count h (show 1 + 1 + (1 + 0) < Expr.clockInterval by decide)]
  have hcallee : (Expr.Nested.name "count").eval (context present now e.limits e.stopwatch) =
      .ok (.builtin .count) := by
    rw [Expr.Nested.eval]
    exact resolve_builtin (by decide) (by decide) (by decide) (by decide) hcount
  refine (Expr.Nested.eval_call hcallee (evalItems_predictions present now)).trans ?_
  show Except.ok (Expr.Value.number (Float.ofNat (values present).length)) = _
  rw [values, List.length_map]

theorem run_pluck {column : String × Forecast → Expr.Value} (hfield : Expr.isName field = true)
    (hcolumn : ∀ p, (record p.1 p.2).member field = .ok (column p)) (h : e.Affords 5)
    (hpluck : "pluck" ∉ Dictionary.keys present) (now : Instant) :
    e.run ("pluck(input.predictions, '" ++ field ++ "')") (bindings present now) =
      .ok (.array (present.map column)) := by
  rw [Expr.Engine.run_of_compile (compile_pluck hfield) h
    (show 1 + 1 + (1 + 1 + (1 + 0)) < Expr.clockInterval by decide)]
  have hcallee : (Expr.Nested.name "pluck").eval (context present now e.limits e.stopwatch) =
      .ok (.builtin .pluck) := by
    rw [Expr.Nested.eval]
    exact resolve_builtin (by decide) (by decide) (by decide) (by decide) hpluck
  have harguments : Expr.Nested.evalItems (context present now e.limits e.stopwatch)
      [.member (.name "input") "predictions", .string field] = .ok [.array (records present), .string field] := by
    rw [Expr.Nested.evalItems, eval_records]
    rfl
  exact (Expr.Nested.eval_call hcallee harguments).trans (pluck_records hcolumn present)

/-- **Views.** Among forecasts of which none is absent, and none from a forecaster called
`pluck` or `count`: the values plucked from the records are the array `predictions`, which
has the value of every forecaster in the order of the ids; the ids plucked from them are
the ids in that order, which is that of their bytes; the count is their number. Whatever a
forecaster is called, both arrays have it at its place, and its id is bound to the record
there unless it is `input` or `predictions`. -/
theorem views_agree (haffords : e.Affords 5) (hall : ∀ f ∈ forecasts, f.2.isSome = true)
    (hordered : Dictionary.Ordered forecasts) (hpluck : "pluck" ∉ Dictionary.keys forecasts)
    (hcount : "count" ∉ Dictionary.keys forecasts) (now : Instant) :
    ∃ present, present? forecasts = some present ∧
      e.run "pluck(input.predictions, 'prediction')" (bindings present now) =
        e.run "predictions" (bindings present now) ∧
      e.run "predictions" (bindings present now) = .ok (.array (values present)) ∧
      e.run "pluck(input.predictions, 'forecaster')" (bindings present now) =
        .ok (.array ((Dictionary.keys forecasts).map .string)) ∧
      (Dictionary.keys forecasts).Pairwise
        (fun id id' => id.toByteArray.data.toList < id'.toByteArray.data.toList) ∧
      e.run "count(predictions)" (bindings present now) = .ok (.number (Float.ofNat forecasts.length)) ∧
      e.run "input.predictions" (bindings present now) = .ok (.array (records present)) ∧
      (values present).length = forecasts.length ∧ (records present).length = forecasts.length ∧
      ∀ (i : Nat) (id : String) (f : Forecast), forecasts[i]? = some (id, some f) →
        (values present)[i]? = some (.number f.value) ∧ (records present)[i]? = some (record id f) ∧
        (id ≠ "input" → id ≠ "predictions" →
          Dictionary.find? id (bindings present now) = (records present)[i]?) := by
  obtain ⟨present, hpresent, -⟩ := exists_present hall
  have hkeys := keys_of_present hpresent
  have hforecasts := eq_map_of_present hpresent
  have hlength : present.length = forecasts.length := by rw [hforecasts, List.length_map]
  have hone : e.Affords 1 := haffords.mono (by decide)
  rw [hkeys] at hpluck hcount
  refine ⟨present, hpresent, ?_, run_predictions hone present now, ?_, ?_, ?_,
    run_records (haffords.mono (by decide)) present now, ?_, ?_, fun i id f hi => ?_⟩
  · have hrun := run_pluck (by decide) (fun p => member_prediction p.1 p.2) haffords hpluck now
    rw [run_predictions hone]
    exact hrun
  · have hrun := run_pluck (by decide) (fun p => member_forecaster p.1 p.2) haffords hpluck now
    rw [hkeys, Dictionary.keys, List.map_map]
    exact hrun
  · exact List.pairwise_map.mpr (hordered.imp Text.toByteArray_lt_of_lt)
  · rw [run_count (haffords.mono (by decide)) hcount, hlength]
  · rw [values, List.length_map, hlength]
  · rw [records, List.length_map, hlength]
  · have hplace : present[i]? = some (id, f) := by
      rw [hforecasts, List.getElem?_map, Option.map_eq_some_iff] at hi
      obtain ⟨p, hp, heq⟩ := hi
      cases heq
      exact hp
    have hrecord : (records present)[i]? = some (record id f) := by
      rw [records, List.getElem?_map, hplace]
      rfl
    refine ⟨?_, hrecord, fun hinput hpredictions => ?_⟩
    · rw [values, List.getElem?_map, hplace]
      rfl
    · have hnodup : (Dictionary.keys present).Nodup := hkeys ▸ hordered.nodup
      have hfind := (Dictionary.mem_iff_find?_of_nodup hnodup).mp (List.mem_of_getElem? hplace)
      rw [find?_bindings hinput hpredictions, hfind, hrecord]
      rfl

/-- Ids of which one begins with another, one is reserved and one is not ASCII. -/
theorem views_agree_four :
    let forecasts : Dictionary (Option Forecast) :=
      [("a", some ⟨1.5, .computeUnits, "", .ofSeconds 0 0⟩),
        ("ab", some ⟨0.0 / 0.0, .metric, "load", .ofSeconds 0 0⟩),
        ("input", some ⟨7.0, .computeUnits, "", .ofSeconds 0 0⟩),
        ("é", some ⟨2.0, .computeUnits, "", .ofSeconds 0 0⟩)]
    ∃ present, present? forecasts = some present ∧
      (Expr.Engine.standard .still).run "pluck(input.predictions, 'prediction')" (bindings present (.ofSeconds 60 0)) =
        .ok (.array (values present)) ∧
      (Expr.Engine.standard .still).run "pluck(input.predictions, 'forecaster')" (bindings present (.ofSeconds 60 0)) =
        .ok (.array [.string "a", .string "ab", .string "input", .string "é"]) ∧
      (Expr.Engine.standard .still).run "count(predictions)" (bindings present (.ofSeconds 60 0)) =
        .ok (.number (Float.ofNat 4)) ∧
      (values present)[2]? = some (.number 7.0) ∧
      Dictionary.find? "é" (bindings present (.ofSeconds 60 0)) = (records present)[3]? := by
  intro forecasts
  have haffords : (Expr.Engine.standard .still).Affords 5 := Expr.Engine.affords_standard .still (by decide)
  have hordered : Dictionary.Ordered forecasts := by
    unfold Dictionary.Ordered
    decide
  obtain ⟨present, hpresent, hvalues, hpredictions, hids, -, hcount, -, -, -, hplaces⟩ :=
    views_agree haffords (by decide : ∀ f ∈ forecasts, f.2.isSome = true) hordered (by decide) (by decide)
      (.ofSeconds 60 0)
  obtain ⟨hinput, -⟩ := hplaces 2 "input" _ rfl
  obtain ⟨-, -, hlast⟩ := hplaces 3 "é" _ rfl
  exact ⟨present, hpresent, hvalues.trans hpredictions, hids, hcount, hinput, hlast (by decide) (by decide)⟩

end PoolScaling.Aggregator
