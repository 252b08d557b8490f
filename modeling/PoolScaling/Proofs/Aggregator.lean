import Mathlib.Data.List.Induction
import PoolScaling.Proofs.Expr.Errors
import PoolScaling.Proofs.Stage

/-! Expressions of an aggregator.

An aggregator only takes an expression that compiles, and keeps the one before when it is
asked to take another (`expression_after`). So the expression that it evaluates compiles,
and what is wrong with it then is never its syntax (`accepted_expression`). -/
namespace PoolScaling
open Change

namespace Aggregator

variable {a : Aggregator} {text : String}

/-- Whether a text can be an expression. -/
def accepts (text : String) : Bool := (Expr.compile text).isOk

/-- The aggregator after it has been asked to take expressions, some of them refused. -/
def after (a : Aggregator) (texts : List String) : Aggregator :=
  texts.foldl (fun a text => stateOf (configure text a)) a

theorem validate_eq (text : String) :
    validate text = match Expr.compile text with
      | .ok _ => .ok ()
      | .error reason => .error (.invalidExpression text reason) := by
  unfold validate Expr.check
  cases Expr.compile text <;> rfl

/-- An expression is taken when it compiles. Otherwise the reason is reported, and the
aggregator stays as it is. -/
theorem configure_eq (text : String) (a : Aggregator) :
    configure text a = match Expr.compile text with
      | .ok _ => .ok () { a with expression := some text }
      | .error reason => .error (.invalidExpression text reason) a := by
  have hvalidate := validate_eq text
  cases hp : Expr.compile text with
  | ok p =>
    rw [hp] at hvalidate
    exact configure_of_validate hvalidate a
  | error reason =>
    rw [hp] at hvalidate
    exact (configure_guarded text).error _ hvalidate a

theorem engine_after (a : Aggregator) (texts : List String) : (a.after texts).engine = a.engine := by
  induction texts generalizing a with
  | nil => rfl
  | cons text texts ih => exact (ih _).trans (engine_configure text a)

/-- The expression is the last that has been accepted. -/
theorem expression_after (a : Aggregator) (texts : List String) :
    (a.after texts).expression = ((texts.filter accepts).getLast?).or a.expression := by
  induction texts using List.reverseRecOn with
  | nil => rfl
  | append_singleton texts text ih =>
    have hstep : a.after (texts ++ [text]) = stateOf (configure text (a.after texts)) := by
      rw [after, List.foldl_append]
      rfl
    rw [hstep, configure_eq, List.filter_append]
    cases hp : Expr.compile text with
    | ok p =>
      have htext : [text].filter accepts = [text] := by simp [accepts, hp, Except.isOk, Except.toBool]
      rw [htext, List.getLast?_append]
      rfl
    | error reason =>
      have htext : [text].filter accepts = [] := by simp [accepts, hp, Except.isOk, Except.toBool]
      rw [htext, List.append_nil]
      exact ih

/-- What an aggregator reports about its expression comes from evaluating it. -/
theorem evaluation_of_aggregate {forecasts : Dictionary (Option Forecast)} {now : Instant} {expression : String}
    {reason : Expr.EvalError}
    (h : a.aggregate forecasts now = .error (.error (.evaluation expression reason))) :
    a.expression = some expression ∧
      ∃ bindings, a.engine.evaluate expression bindings = Expr.fail reason := by
  unfold aggregate at h
  split at h
  · cases h
  · rename_i text htext
    split at h
    · cases h
    · split at h
      · cases h
      · rename_i present _
        split at h
        · cases h
        · rename_i failure hfailure
          cases failure with
          | crash => cases h
          | error e =>
            cases h
            exact ⟨htext, bindings present now, hfailure⟩

/-- **Accepted expressions.** Whatever texts an aggregator has been asked to take: its
expression is the last of them that compiles; it takes another exactly when that
compiles, and keeps its own otherwise. Whatever it is to aggregate, and whenever, its
expression is not reported to be malformed, and to be empty only when it consists of
definitions. -/
theorem accepted_expression (engine : Expr.Engine) (texts : List String) :
    let a := (Aggregator.mk engine none).after texts
    a.expression = (texts.filter accepts).getLast? ∧
    (∀ text, configure text a = match Expr.compile text with
      | .ok _ => .ok () { a with expression := some text }
      | .error reason => .error (.invalidExpression text reason) a) ∧
    ∀ forecasts now expression reason,
      a.aggregate forecasts now = .error (.error (.evaluation expression reason)) →
        a.expression = some expression ∧
        ∃ p, Expr.compile expression = .ok p ∧ (∀ d, reason ≠ .malformed d) ∧
          (reason = .empty → ∀ s ∈ p.statements, s.isDefinition = true) := by
  intro a
  have hlast : a.expression = (texts.filter accepts).getLast? := by
    rw [expression_after, Option.or_none]
  refine ⟨hlast, fun text => configure_eq text a, ?_⟩
  intro forecasts now expression reason h
  obtain ⟨hexpression, bindings, hfails⟩ := evaluation_of_aggregate h
  have hmem : expression ∈ texts.filter accepts := List.mem_of_getLast? (hlast.symm.trans hexpression)
  have haccepts : accepts expression = true := (List.mem_filter.mp hmem).2
  cases hp : Expr.compile expression with
  | ok p =>
    obtain ⟨hmalformed, hempty⟩ := Expr.evaluate_error hp hfails
    exact ⟨hexpression, p, rfl, hmalformed, hempty⟩
  | error e =>
    rw [accepts, hp] at haccepts
    cases haccepts

/-- The expression of an aggregator that it reports to be empty, if it does. -/
def emptyExpression? (a : Aggregator) (forecasts : Dictionary (Option Forecast)) (now : Instant) : Option String :=
  match a.aggregate forecasts now with
  | .error (.error (.evaluation expression .empty)) => some expression
  | _ => none

theorem aggregate_of_emptyExpression? {forecasts : Dictionary (Option Forecast)} {now : Instant}
    {expression : String} (h : a.emptyExpression? forecasts now = some expression) :
    a.aggregate forecasts now = .error (.error (.evaluation expression .empty)) := by
  unfold emptyExpression? at h
  split at h
  · rename_i hempty
    cases h
    exact hempty
  · cases h

/-- A definition alone is accepted and comes to nothing; the open bracket after it is
refused. -/
theorem accepted_expression_of_definition :
    let a := (Aggregator.mk (.standard .still) none).after ["1", "let x = 1", "("]
    let forecasts : Dictionary (Option Forecast) := [("f", some ⟨4.0, .computeUnits, "", .ofSeconds 0 0⟩)]
    a.aggregate forecasts (.ofSeconds 0 0) = .error (.error (.evaluation "let x = 1" .empty)) ∧
      a.expression = some "let x = 1" ∧
      ∃ p, Expr.compile "let x = 1" = .ok p ∧ ∀ s ∈ p.statements, s.isDefinition = true := by
  intro a forecasts
  have hempty : a.aggregate forecasts (.ofSeconds 0 0) = .error (.error (.evaluation "let x = 1" .empty)) :=
    aggregate_of_emptyExpression? (by decide +kernel)
  obtain ⟨-, -, hreports⟩ := accepted_expression (.standard .still) ["1", "let x = 1", "("]
  obtain ⟨hexpression, p, hp, -, hdefinitions⟩ := hreports forecasts _ _ _ hempty
  exact ⟨hempty, hexpression, p, hp, hdefinitions rfl⟩

end Aggregator

end PoolScaling
