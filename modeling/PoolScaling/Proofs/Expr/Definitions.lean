import PoolScaling.Proofs.Expr.Single

/-! Definitions as bindings.

A definition gives a name to a value for the statements after it, and so does a binding of
the caller. Names are looked up in the definitions first, but evaluation sees only what a name
comes to (`Nested.eval_congr`), so a script that begins with definitions means what its other
statements mean in bindings that have them already (`Program.meaning_defines`). As long as no
limit ends a run, a script has its meaning (`Program.run_eq_meaning`). -/
namespace PoolScaling.Expr
open Eval

variable {c c' : Context}

/-! ### Names and nested expressions -/

mutual

/-- Where names come to the same, expressions do. -/
theorem Nested.eval_congr (h : c.resolve = c'.resolve) (t : Nested) : t.eval c = t.eval c' := by
  cases t with
  | number | string | bool | null => rw [Nested.eval, Nested.eval]
  | name s => rw [Nested.eval, Nested.eval, h]
  | array items => rw [Nested.eval, Nested.eval, Nested.evalItems_congr h items]
  | record fields => rw [Nested.eval, Nested.eval, Nested.evalFields_congr h fields]
  | unary op operand => rw [Nested.eval, Nested.eval, Nested.eval_congr h operand]
  | binary op left right =>
    rw [Nested.eval, Nested.eval, Nested.eval_congr h left, Nested.eval_congr h right]
  | conditional condition yes no =>
    rw [Nested.eval, Nested.eval, Nested.eval_congr h condition, Nested.eval_congr h yes, Nested.eval_congr h no]
  | member target field => rw [Nested.eval, Nested.eval, Nested.eval_congr h target]
  | index target i => rw [Nested.eval, Nested.eval, Nested.eval_congr h target, Nested.eval_congr h i]
  | call callee arguments =>
    rw [Nested.eval, Nested.eval, Nested.eval_congr h callee, Nested.evalItems_congr h arguments]

theorem Nested.evalItems_congr (h : c.resolve = c'.resolve) (ts : List Nested) :
    Nested.evalItems c ts = Nested.evalItems c' ts := by
  cases ts with
  | nil => rw [Nested.evalItems, Nested.evalItems]
  | cons t ts => rw [Nested.evalItems, Nested.evalItems, Nested.eval_congr h t, Nested.evalItems_congr h ts]

theorem Nested.evalFields_congr (h : c.resolve = c'.resolve) (fields : List (String × Nested)) :
    Nested.evalFields c fields = Nested.evalFields c' fields := by
  match fields with
  | [] => rw [Nested.evalFields, Nested.evalFields]
  | (key, t) :: fields =>
    rw [Nested.evalFields, Nested.evalFields, Nested.eval_congr h t, Nested.evalFields_congr h fields]

end

/-! ### The meaning of statements -/

/-- The outcome of statements without limits; `last` is the value of the last expression so
far. -/
def meaning (c : Context) (last : Option Value) : List Statement → Outcome Value
  | [] =>
    match last with
    | some v => pure v
    | none => Expr.fail .empty
  | .define name t :: rest => do
    let v ← t.nest.eval c
    meaning { c with locals := Dictionary.insert name v c.locals } last rest
  | .yield t :: rest => do
    let v ← t.nest.eval c
    meaning c (some v) rest
  | .answer t :: _ => t.nest.eval c

theorem runStatements_computes (c : Context) (last : Option Value) (ss : List Statement) :
    Computes (runStatements c last ss) (meaning c last ss) := by
  induction ss generalizing c last with
  | nil =>
    cases last with
    | some v => exact computes_pure v
    | none => exact computes_fail .empty
  | cons s ss ih =>
    cases s with
    | define name t => exact t.eval_computes.bind fun v => ih _ last
    | yield t => exact t.eval_computes.bind fun v => ih c (some v)
    | answer t => exact t.eval_computes

theorem meaning_congr (h : c.resolve = c'.resolve) (last : Option Value) (ss : List Statement) :
    meaning c last ss = meaning c' last ss := by
  induction ss generalizing c c' last with
  | nil => rfl
  | cons s ss ih =>
    cases s with
    | define name t =>
      rw [meaning, meaning, Nested.eval_congr h]
      refine bind_congr fun v => ih ?_ last
      funext x
      rw [Context.resolve_define, Context.resolve_define, h]
    | yield t =>
      rw [meaning, meaning, Nested.eval_congr h]
      exact bind_congr fun v => ih h (some v)
    | answer t => rw [meaning, meaning, Nested.eval_congr h]

/-- What names come to in the bindings of a caller. -/
def Context.ofBindings (bindings : Dictionary Value) : Context := ⟨[], bindings, .standard, .still⟩

/-- The outcome of a program without limits. -/
def Program.meaning (p : Program) (bindings : Dictionary Value) : Outcome Value :=
  Expr.meaning (.ofBindings bindings) none p.statements

variable {bindings : Dictionary Value} {limits : Limits} {stopwatch : Stopwatch}

/-- **Runs without limits.** A run that no limit ends has the outcome that the program means. -/
theorem Program.run_eq_meaning {p : Program} (hrange : limits.timeout.seconds < clockRange)
    (h : ¬ AtLimit (p.run bindings limits stopwatch)) : p.run bindings limits stopwatch = p.meaning bindings := by
  rw [p.run_eq_result hrange] at h ⊢
  rcases runStatements_computes ⟨[], bindings, limits, stopwatch⟩ none p.statements ⟨0, 0⟩ with hlimit | hvalue
  · exact absurd hlimit h
  · have hresolve : (Context.mk [] bindings limits stopwatch).resolve = (Context.ofBindings bindings).resolve := rfl
    exact hvalue.trans (meaning_congr hresolve none p.statements)

/-- The clock has range for the timeout of a run with a value. -/
theorem Program.range_of_ok {p : Program} {v : Value} (h : p.run bindings limits stopwatch = .ok v) :
    limits.timeout.seconds < clockRange := by
  by_contra hrange
  rw [run, if_pos (Nat.not_lt.mp hrange)] at h
  cases h

/-- An expression with a value means the value. -/
theorem Tree.eval_of_run {e : Tree} {v : Value} (h : e.program.run bindings limits stopwatch = .ok v) :
    e.nest.eval (.ofBindings bindings) = .ok v := by
  have hlimit : ¬ AtLimit (e.program.run bindings limits stopwatch) := by
    rw [h]
    rintro ⟨l, hl⟩
    cases hl
  have hmeaning : e.program.meaning bindings = e.nest.eval (.ofBindings bindings) :=
    bind_pure (e.nest.eval (.ofBindings bindings))
  rw [← hmeaning, ← Program.run_eq_meaning (Program.range_of_ok h) hlimit, h]

/-! ### Definitions -/

/-- A definition and a binding give a name to a value alike. -/
theorem Context.resolve_ofBindings_insert (x : String) (v : Value) :
    ({ ofBindings bindings with locals := [(x, v)] } : Context).resolve =
      (ofBindings (Dictionary.insert x v bindings)).resolve := by
  funext y
  refine (Context.resolve_define (ofBindings bindings) x v y).trans ?_
  unfold resolve ofBindings
  dsimp only
  rw [Dictionary.find?_insert]
  by_cases hy : y = x
  · rw [if_pos hy, if_pos hy]
    rfl
  · rw [if_neg hy, if_neg hy]

/-- A definition of a value is a binding for the statements after it. -/
theorem Program.meaning_define {x : String} {e : Tree} {v : Value} (h : e.nest.eval (.ofBindings bindings) = .ok v)
    (rest : List Statement) :
    Program.meaning ⟨.define x e :: rest⟩ bindings = Program.meaning ⟨rest⟩ (Dictionary.insert x v bindings) := by
  refine Eq.trans ?_ (meaning_congr (Context.resolve_ofBindings_insert x v) none rest)
  unfold meaning
  rw [Expr.meaning, h]
  rfl

/-- Whether the definitions `ds` give their names the values `vs`, each in the bindings that
those before it extend. -/
inductive Defines (limits : Limits) : Dictionary Value → List (String × Tree) → List (String × Value) → Prop where
  | none {bindings : Dictionary Value} : Defines limits bindings [] []
  | more {bindings : Dictionary Value} {stopwatch : Stopwatch} {x : String} {e : Tree} {v : Value}
      {ds : List (String × Tree)} {vs : List (String × Value)}
      (first : e.program.run bindings limits stopwatch = .ok v)
      (rest : Defines limits (Dictionary.insert x v bindings) ds vs) :
      Defines limits bindings ((x, e) :: ds) ((x, v) :: vs)

/-- Definitions before other statements. -/
def defining (ds : List (String × Tree)) (rest : List Statement) : Program :=
  ⟨ds.map (fun d => .define d.1 d.2) ++ rest⟩

variable {ds : List (String × Tree)} {vs : List (String × Value)}

/-- **Definitions mean bindings.** -/
theorem Defines.meaning (h : Defines limits bindings ds vs) (rest : List Statement) :
    (defining ds rest).meaning bindings = Program.meaning ⟨rest⟩ (Dictionary.insertAll bindings vs) := by
  induction h with
  | none => rfl
  | more first _ ih => exact (Program.meaning_define (Tree.eval_of_run first) _).trans ih

/-- Runs that no limit ends have the same outcome, with definitions and with bindings. -/
theorem Defines.run (h : Defines limits bindings ds vs) {rest : List Statement} {stopwatch stopwatch' : Stopwatch}
    (hwhole : ¬ AtLimit ((defining ds rest).run bindings limits stopwatch))
    (hrest : ¬ AtLimit (Program.run ⟨rest⟩ (Dictionary.insertAll bindings vs) limits stopwatch')) :
    (defining ds rest).run bindings limits stopwatch =
      Program.run ⟨rest⟩ (Dictionary.insertAll bindings vs) limits stopwatch' := by
  by_cases hrange : limits.timeout.seconds < clockRange
  · rw [Program.run_eq_meaning hrange hwhole, h.meaning, Program.run_eq_meaning hrange hrest]
  · rw [Program.run, Program.run, if_pos (Nat.not_lt.mp hrange), if_pos (Nat.not_lt.mp hrange)]

/-- A definition that fails ends the run. -/
theorem Program.run_define_of_error {x : String} {e : Tree} {failure : Failure EvalError}
    (h : e.program.run bindings limits stopwatch = .error failure) (rest : List Statement) :
    Program.run ⟨.define x e :: rest⟩ bindings limits stopwatch = .error failure := by
  by_cases hrange : limits.timeout.seconds < clockRange
  · rw [Program.run_eq_result _ hrange] at h ⊢
    cases he : e.eval ⟨[], bindings, limits, stopwatch⟩ ⟨0, 0⟩ with
    | ok v m =>
      rw [Tree.program, runStatements, bind_ok he] at h
      cases h
    | error failure' m =>
      have hyield : (Statement.yield e).tree.eval ⟨[], bindings, limits, stopwatch⟩ ⟨0, 0⟩ =
          .error failure' m := he
      have hdefine : (Statement.define x e).tree.eval ⟨[], bindings, limits, stopwatch⟩ ⟨0, 0⟩ =
          .error failure' m := he
      rw [Tree.program, runStatements_of_error hyield] at h
      rw [runStatements_of_error hdefine]
      exact h
  · rw [Program.run, if_pos (Nat.not_lt.mp hrange)] at h ⊢
    exact h

/-- The last value that definitions give a name is what the name comes to. -/
theorem Context.resolve_insertAll (y : String) (vs : List (String × Value)) (bindings : Dictionary Value) :
    (ofBindings (Dictionary.insertAll bindings vs)).resolve y =
      match Dictionary.find? y vs.reverse with
      | some v => .ok v
      | none => (ofBindings bindings).resolve y := by
  unfold resolve ofBindings
  dsimp only
  rw [Dictionary.find?_insertAll_reverse]
  cases Dictionary.find? y vs.reverse <;> rfl

/-! ### Returns -/

/-- Nothing after a `return` is run. -/
theorem runStatements_answer (c : Context) (last : Option Value) (before : List Statement) (t : Tree)
    (after after' : List Statement) :
    runStatements c last (before ++ .answer t :: after) = runStatements c last (before ++ .answer t :: after') := by
  induction before generalizing c last with
  | nil => rfl
  | cons s before ih =>
    cases s with
    | define name t => exact bind_congr fun v => ih _ last
    | yield t => exact bind_congr fun v => ih c (some v)
    | answer t => rfl

/-- Statements after a `return` make no difference to a run. -/
theorem Program.run_answer (before : List Statement) (t : Tree) (after after' : List Statement) :
    Program.run ⟨before ++ .answer t :: after⟩ bindings limits stopwatch =
      Program.run ⟨before ++ .answer t :: after'⟩ bindings limits stopwatch := by
  unfold run
  dsimp only
  rw [runStatements_answer]

/-! ### Scripts -/

/-- **Definitions are bindings.** A definition that fails ends the run with its failure. One
that has a value gives the statements after it the run that they have by themselves in bindings
with that value, as long as no limit ends the runs, and so do any number of definitions. There a
name has the last value that a definition gives it, whether or not it is that of a builtin. What
follows the first `return` does not matter. -/
theorem Program.run_defining (bindings : Dictionary Value) (limits : Limits) :
    (∀ x e rest stopwatch failure, e.program.run bindings limits stopwatch = .error failure →
      Program.run ⟨.define x e :: rest⟩ bindings limits stopwatch = .error failure) ∧
    (∀ x e rest v clock stopwatch stopwatch', e.program.run bindings limits clock = .ok v →
      ¬ AtLimit (Program.run ⟨.define x e :: rest⟩ bindings limits stopwatch) →
      ¬ AtLimit (Program.run ⟨rest⟩ (Dictionary.insert x v bindings) limits stopwatch') →
      Program.run ⟨.define x e :: rest⟩ bindings limits stopwatch =
        Program.run ⟨rest⟩ (Dictionary.insert x v bindings) limits stopwatch') ∧
    (∀ ds vs rest stopwatch stopwatch', Defines limits bindings ds vs →
      ¬ AtLimit ((defining ds rest).run bindings limits stopwatch) →
      ¬ AtLimit (Program.run ⟨rest⟩ (Dictionary.insertAll bindings vs) limits stopwatch') →
      (defining ds rest).run bindings limits stopwatch =
        Program.run ⟨rest⟩ (Dictionary.insertAll bindings vs) limits stopwatch') ∧
    (∀ y vs, (Context.ofBindings (Dictionary.insertAll bindings vs)).resolve y =
      match Dictionary.find? y vs.reverse with
      | some v => .ok v
      | none => (Context.ofBindings bindings).resolve y) ∧
    ∀ before t after after' stopwatch, Program.run ⟨before ++ .answer t :: after⟩ bindings limits stopwatch =
      Program.run ⟨before ++ .answer t :: after'⟩ bindings limits stopwatch := by
  refine ⟨?failing, ?one, ?many, ?names, ?returns⟩
  case failing => exact fun x e rest stopwatch failure h => run_define_of_error h rest
  case one =>
    intro x e rest v clock stopwatch stopwatch' h hwhole hrest
    have hdefines : Defines limits bindings [(x, e)] [(x, v)] := .more h .none
    exact hdefines.run hwhole hrest
  case many => exact fun ds vs rest stopwatch stopwatch' h hwhole hrest => h.run hwhole hrest
  case names => exact fun y vs => Context.resolve_insertAll y vs bindings
  case returns => exact fun before t after after' stopwatch => run_answer before t after after'

/-- Two definitions of `max`, the second of them by the first and by `Math`, which the caller
has bound. -/
theorem Program.run_defining_max :
    let bindings : Dictionary Value := [("Math", .string "bound")]
    let ds : List (String × Tree) :=
      [("max", .bool true), ("max", .conditional (.name "max") (.name "Math") (.name "max"))]
    let rest : List Statement := [.answer (.name "max"), .yield (.name "unknown")]
    (Tree.name "other").program.run bindings .standard .still = fail (.undefined (.name "other")) ∧
      Program.run ⟨.define "max" (.name "other") :: rest⟩ bindings .standard .still =
        fail (.undefined (.name "other")) ∧
      Defines .standard bindings ds [("max", .bool true), ("max", .string "bound")] ∧
      (defining ds rest).run bindings .standard .still =
        Program.run ⟨rest⟩ [("Math", .string "bound"), ("max", .string "bound")] .standard .still := by
  intro bindings ds rest
  have hother : (Tree.name "other").program.run bindings .standard .still = fail (.undefined (.name "other")) := rfl
  have hfirst : (Tree.bool true).program.run bindings .standard .still = .ok (.bool true) := rfl
  have hsecond : (Tree.conditional (.name "max") (.name "Math") (.name "max")).program.run
      (Dictionary.insert "max" (.bool true) bindings) .standard .still = .ok (.string "bound") := rfl
  have hdefines : Defines .standard bindings ds [("max", .bool true), ("max", .string "bound")] :=
    .more hfirst (.more hsecond .none)
  obtain ⟨hfailing, -, hmany, -, -⟩ := run_defining bindings .standard
  refine ⟨hother, hfailing "max" _ rest .still _ hother, hdefines, hmany ds _ rest .still .still hdefines ?_ ?_⟩
  · rintro ⟨l, hl⟩
    cases hl
  · rintro ⟨l, hl⟩
    cases hl

end PoolScaling.Expr
