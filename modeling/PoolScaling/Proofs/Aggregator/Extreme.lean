import PoolScaling.Proofs.Aggregator.Naming
import PoolScaling.Proofs.Aggregator.Views
import PoolScaling.Proofs.Number.Extreme

/-! The greatest and the least prediction.

The builtins `max` and `min` search their arguments for an extreme. Over `predictions` it is
one of the predictions that reaches all others, however many there are, and the names of
the forecasters have no influence on it except on the sign of a zero
(`extreme_of_predictions`). -/
namespace PoolScaling

namespace Expr
open Number (Extreme)

/-- The builtin that searches for an extreme. -/
def Builtin.ofExtreme : Extreme → Builtin
  | .greatest => .max
  | .least => .min

variable {e : Extreme} {xs : List Float} {arguments : List Value}

theorem mapM_numberOf (b : Builtin) (xs : List Float) : (xs.map Value.number).mapM b.numberOf = .ok xs := by
  have hpure : b.numberOf ∘ Value.number = fun x => pure x := rfl
  rw [List.mapM_map, hpure]
  exact List.mapM_pure.trans (congrArg Except.ok (List.map_id' xs))

/-- Numbers can be given as several arguments. -/
theorem numbersOf_numbers (b : Builtin) (xs : List Float) : b.numbersOf (xs.map .number) = .ok xs := by
  have hmany : b.numbersOf (xs.map .number) = (xs.map Value.number).mapM b.numberOf := by
    cases xs <;> rfl
  rw [hmany, mapM_numberOf]

/-- Numbers can be given as one array. -/
theorem numbersOf_array (b : Builtin) (xs : List Float) : b.numbersOf [.array (xs.map .number)] = .ok xs :=
  mapM_numberOf b xs

theorem call_of_numbersOf (h : (Builtin.ofExtreme e).numbersOf arguments = .ok xs) (hne : xs ≠ []) :
    (Builtin.ofExtreme e).call arguments = .ok (.number (e.fold xs)) := by
  have hsome : (Builtin.ofExtreme e).someNumbersOf arguments = .ok xs := by
    have hnonempty : ¬ xs.isEmpty = true := by simpa using hne
    rw [Builtin.someNumbersOf, h]
    exact if_neg hnonempty
  cases e with
  | greatest =>
    show Builtin.max.someNumbersOf arguments >>= _ = _
    rw [show Builtin.max.someNumbersOf arguments = .ok xs from hsome]
    rfl
  | least =>
    show Builtin.min.someNumbersOf arguments >>= _ = _
    rw [show Builtin.min.someNumbersOf arguments = .ok xs from hsome]
    rfl

end Expr

namespace Aggregator
open Number (Extreme)

variable {a : Aggregator} {forecasts : Dictionary (Option Forecast)} {present : Dictionary Forecast}
  {now : Instant} {e : Extreme} {limits : Expr.Limits} {stopwatch : Expr.Stopwatch}

/-! ### Spellings -/

/-- The builtin of an extreme can be named by itself or as a field of `Math`. -/
inductive Spelling where
  | plain
  | qualified

namespace Spelling

/-- The name that a spelling looks up. -/
def name (s : Spelling) (e : Extreme) : String :=
  match s with
  | plain => (Expr.Builtin.ofExtreme e).name
  | qualified => "Math"

/-- The expression that spells the extreme of all predictions. -/
def text (s : Spelling) (e : Extreme) : String :=
  match s with
  | plain => (Expr.Builtin.ofExtreme e).name ++ "(predictions)"
  | qualified => "Math." ++ (Expr.Builtin.ofExtreme e).name ++ "(predictions)"

def callee (s : Spelling) (e : Extreme) : Expr.Tree :=
  match s with
  | plain => .name (Expr.Builtin.ofExtreme e).name
  | qualified => .member (.name "Math") (Expr.Builtin.ofExtreme e).name

def tree (s : Spelling) (e : Extreme) : Expr.Tree := .call (s.callee e) [.name "predictions"]

theorem compile_text (s : Spelling) (e : Extreme) : Expr.compile (s.text e) = .ok (s.tree e).program := by
  have hargument := writes_predictions.last
  cases s with
  | plain =>
    have hcallee : Expr.Writes (Expr.Builtin.ofExtreme e).name _ 0 1 (.name (Expr.Builtin.ofExtreme e).name) :=
      .name (by cases e <;> exact ⟨by decide, by decide⟩)
    have hcompile := (hcallee.call hargument).compile (by decide)
    rwa [String.append_assoc, String.append_assoc] at hcompile
  | qualified =>
    have hmath : Expr.Writes "Math" _ 0 1 (.name "Math") := .name ⟨by decide, by decide⟩
    have hcallee := hmath.member (show Expr.isName (Expr.Builtin.ofExtreme e).name = true by cases e <;> decide)
    have hcompile := (hcallee.call hargument).compile (by decide)
    rwa [String.append_assoc, String.append_assoc] at hcompile

theorem nodes_le (s : Spelling) (e : Extreme) : (s.tree e).nodes ≤ 4 := by
  cases s <;> cases e <;> decide

end Spelling

theorem resolve_math (h : "Math" ∉ Dictionary.keys present) :
    (context present now limits stopwatch).resolve "Math" = .ok Expr.Value.math := by
  have hunbound : Dictionary.find? "Math" (bindings present now) = none := by
    rw [find?_bindings (by decide) (by decide), Dictionary.find?_eq_none h]
    rfl
  simp only [Expr.Context.resolve, context, Dictionary.find?, hunbound, if_pos]

/-- Either spelling means the builtin, unless a forecaster has the name. -/
theorem Spelling.eval_callee {s : Spelling} (h : s.name e ∉ Dictionary.keys present) :
    (s.callee e).nest.eval (context present now limits stopwatch) = .ok (.builtin (Expr.Builtin.ofExtreme e)) := by
  cases s with
  | plain =>
    show (context present now limits stopwatch).resolve (Expr.Builtin.ofExtreme e).name = _
    cases e <;> exact resolve_builtin (by decide) (by decide) (by decide) (by decide) h
  | qualified =>
    show (context present now limits stopwatch).resolve "Math" >>= _ = _
    rw [resolve_math h]
    cases e <;> rfl

/-! ### Predictions -/

/-- All values that forecasters predict. -/
def predicted (forecasts : Dictionary (Option Forecast)) : List Float :=
  forecasts.filterMap fun p => p.2.map Forecast.value

theorem predicted_of_present (h : present? forecasts = some present) :
    predicted forecasts = present.map fun p => p.2.value := by
  rw [eq_map_of_present h, predicted, List.filterMap_map]
  exact congrFun (List.filterMap_eq_map (f := fun p : String × Forecast => p.2.value)) present

theorem run_extreme {s : Spelling} (haffords : a.engine.Affords 4) (hname : s.name e ∉ Dictionary.keys present)
    (hne : present ≠ []) (now : Instant) :
    a.engine.run (s.text e) (bindings present now) = .ok (.number (e.fold (present.map fun p => p.2.value))) := by
  have hnodes := s.nodes_le e
  rw [Expr.Engine.run_of_compile (s.compile_text e) (haffords.mono hnodes)
    (Nat.lt_of_le_of_lt hnodes (by decide))]
  refine (Expr.Nested.eval_call (s.eval_callee hname) (evalItems_predictions present now)).trans ?_
  have hvalues : values present = (present.map fun p => p.2.value).map .number := by
    rw [values, List.map_map]
    rfl
  rw [hvalues]
  exact Expr.call_of_numbersOf (Expr.numbersOf_array _ _) (by simpa using hne)

/-- An aggregator comes to the extreme of all predictions, if they are finite. -/
theorem gives_extreme (haffords : a.engine.Affords 4) (hne : forecasts ≠ [])
    (hall : ∀ f ∈ forecasts, f.2.isSome = true) (hfinite : ∀ x ∈ predicted forecasts, x.isFinite = true)
    (now : Instant) :
    e.IsExtreme (e.fold (predicted forecasts)) (predicted forecasts) ∧
      ∀ s : Spelling, s.name e ∉ Dictionary.keys forecasts →
        a.Gives (s.text e) forecasts now (.ok (some (e.fold (predicted forecasts)))) := by
  obtain ⟨present, hpresent, -⟩ := exists_present hall
  have hpredicted := predicted_of_present hpresent
  have hne' : present ≠ [] := by
    rintro rfl
    exact hne (eq_map_of_present hpresent)
  have hnumber : ∃ x ∈ predicted forecasts, x.isNaN = false := by
    obtain ⟨p, rest, rfl⟩ := List.exists_cons_of_ne_nil hne'
    have hmem : p.2.value ∈ predicted forecasts := by
      rw [hpredicted]
      exact List.mem_cons_self
    exact ⟨_, hmem, Number.isNaN_of_isFinite (hfinite _ hmem)⟩
  have hextreme := e.isExtreme_fold hnumber
  refine ⟨hextreme, fun s hname => ?_⟩
  rw [keys_of_present hpresent] at hname
  have hrun := run_extreme haffords hname hne' now
  rw [← hpredicted] at hrun
  have hgives := gives_of_run (s.compile_text e) hne hpresent hrun
  rwa [verdict, if_pos (hfinite _ hextreme.mem)] at hgives

/-- Under other names forecasters predict the same. -/
theorem predicted_rename {f : String → String} (h : ((Dictionary.keys forecasts).map f).Nodup) :
    (predicted forecasts).Perm (predicted (Dictionary.rename f forecasts)) := by
  have hperm := ((Dictionary.perm_rename h).filterMap fun p => p.2.map Forecast.value).symm
  rw [List.filterMap_map] at hperm
  exact hperm

/-- **The greatest and the least prediction.** The builtins `max` and `min` of any numbers,
given as several arguments or as one array, pass over NaN and come to a number that reaches
all others, if there is one. An aggregator takes either of them over `predictions`, by its
name or as a field of `Math`, unless a forecaster has the name: it comes to a prediction
that reaches all predictions, if they are finite, however many there are. If the forecasters
are given other names, nothing changes but perhaps the sign of a zero. -/
theorem extreme_of_predictions (e : Extreme) :
    (∀ xs : List Float, xs ≠ [] →
      ∃ m, (Expr.Builtin.ofExtreme e).call (xs.map .number) = .ok (.number m) ∧
        (Expr.Builtin.ofExtreme e).call [.array (xs.map .number)] = .ok (.number m) ∧
        ((∃ x ∈ xs, x.isNaN = false) → e.IsExtreme m xs ∧
          (Expr.Builtin.ofExtreme e).call ((Number.Extreme.numbers xs).map .number) = .ok (.number m))) ∧
    ∀ (a : Aggregator) (forecasts : Dictionary (Option Forecast)) (now : Instant), a.engine.Affords 4 →
      forecasts ≠ [] → (∀ f ∈ forecasts, f.2.isSome = true) → (∀ x ∈ predicted forecasts, x.isFinite = true) →
      ∃ m, e.IsExtreme m (predicted forecasts) ∧
        (∀ s : Spelling, s.name e ∉ Dictionary.keys forecasts →
          a.Gives (s.text e) forecasts now (.ok (some m))) ∧
        ∀ f : String → String, ((Dictionary.keys forecasts).map f).Nodup →
          ∃ m', (m = m' ∨ (m == 0.0) = true ∧ (m' == 0.0) = true) ∧
            ∀ s : Spelling, s.name e ∉ (Dictionary.keys forecasts).map f →
              a.Gives (s.text e) (Dictionary.rename f forecasts) now (.ok (some m')) := by
  refine ⟨fun xs hne => ⟨e.fold xs, ?_, ?_, fun hnumber => ⟨e.isExtreme_fold hnumber, ?_⟩⟩, ?_⟩
  · exact Expr.call_of_numbersOf (Expr.numbersOf_numbers _ xs) hne
  · exact Expr.call_of_numbersOf (Expr.numbersOf_array _ xs) hne
  · obtain ⟨x, hx, hxnumber⟩ := hnumber
    have hsome : Number.Extreme.numbers xs ≠ [] :=
      List.ne_nil_of_mem (List.mem_filter.mpr ⟨hx, by rw [hxnumber]; rfl⟩)
    rw [Expr.call_of_numbersOf (Expr.numbersOf_numbers _ _) hsome, e.fold_numbers]
  · intro a forecasts now haffords hne hall hfinite
    obtain ⟨hextreme, hgives⟩ := gives_extreme haffords hne hall hfinite now
    refine ⟨_, hextreme, hgives, fun f hnodup => ?_⟩
    have hperm := Dictionary.perm_rename hnodup
    have hpredicted := predicted_rename hnodup
    have hne' : Dictionary.rename f forecasts ≠ [] := by
      intro hnil
      rw [hnil, List.nil_perm, List.map_eq_nil_iff] at hperm
      exact hne hperm
    have hall' : ∀ p ∈ Dictionary.rename f forecasts, p.2.isSome = true := by
      intro p hp
      obtain ⟨p', hp', rfl⟩ := List.mem_map.mp (hperm.mem_iff.mp hp)
      exact hall p' hp'
    obtain ⟨hextreme', hgives'⟩ := gives_extreme (e := e) haffords hne' hall'
      (fun x hx => hfinite x (hpredicted.mem_iff.mpr hx)) now
    refine ⟨_, hextreme.eq_or_zero hextreme' hpredicted, fun s hname => hgives' s fun hmem => hname ?_⟩
    exact (Dictionary.keys_rename hnodup).mem_iff.mp hmem

/-- Beside NaN there is one number, and two zeros that change places. -/
theorem extreme_of_predictions_two :
    let forecasts : Dictionary (Option Forecast) :=
      [("a", some ⟨-0.0, .computeUnits, "", .ofSeconds 0 0⟩), ("b", some ⟨0.0, .metric, "load", .ofSeconds 0 0⟩)]
    let renamed : Dictionary (Option Forecast) :=
      [("b", some ⟨0.0, .metric, "load", .ofSeconds 0 0⟩), ("c", some ⟨-0.0, .computeUnits, "", .ofSeconds 0 0⟩)]
    (∃ m, Expr.Builtin.max.call [.number (0.0 / 0.0), .number 2.5] = .ok (.number m) ∧
      Extreme.greatest.IsExtreme m [0.0 / 0.0, 2.5]) ∧
    ∃ m m', Extreme.greatest.IsExtreme m [-0.0, 0.0] ∧
      (Aggregator.new .still).Gives "max(predictions)" forecasts (.ofSeconds 60 0) (.ok (some m)) ∧
      (Aggregator.new .still).Gives "Math.max(predictions)" forecasts (.ofSeconds 60 0) (.ok (some m)) ∧
      (Aggregator.new .still).Gives "max(predictions)" renamed (.ofSeconds 60 0) (.ok (some m')) ∧
      (m = m' ∨ (m == 0.0) = true ∧ (m' == 0.0) = true) := by
  intro forecasts renamed
  obtain ⟨hcalls, haggregates⟩ := extreme_of_predictions .greatest
  obtain ⟨m, hcall, -, hextreme⟩ := hcalls [0.0 / 0.0, 2.5] (List.cons_ne_nil _ _)
  have hnumber : ∃ x ∈ [0.0 / 0.0, 2.5], Float.isNaN x = false := ⟨2.5, by simp, by decide +kernel⟩
  have haffords : (Aggregator.new .still).engine.Affords 4 := Expr.Engine.affords_standard .still (by decide)
  obtain ⟨m₁, hextreme₁, hgives, hrenamed⟩ := haggregates (.new .still) forecasts (.ofSeconds 60 0) haffords
    (List.cons_ne_nil _ _) (by decide) (by decide +kernel)
  obtain ⟨m₂, hsame, hgives'⟩ := hrenamed (fun id => if id = "a" then "c" else id) (by decide)
  have hname : Dictionary.rename (fun id => if id = "a" then "c" else id) forecasts = renamed := rfl
  rw [hname] at hgives'
  exact ⟨⟨m, hcall, (hextreme hnumber).1⟩, m₁, m₂, hextreme₁, hgives .plain (by decide), hgives .qualified (by decide),
    hgives' .plain (by decide), hsame⟩

end Aggregator

end PoolScaling
