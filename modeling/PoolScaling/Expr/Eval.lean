import PoolScaling.Change
import PoolScaling.Expr.Operation
import PoolScaling.Expr.Parser

/-! Evaluation within limits.

Every node of a tree that is evaluated costs a step, and the clock is looked at
on every 256th step. A `Meter` counts steps and open nodes; evaluation returns
it with failures too. What the clock shows is given: time since the start of the
evaluation at each step. -/
namespace PoolScaling.Expr

structure Limits where
  /-- How many nodes may be evaluated. -/
  maxSteps : Nat
  /-- How long the evaluation may run. -/
  timeout : Duration
  deriving Repr, DecidableEq

def Limits.standard : Limits := ⟨100000, .ofMillis 250⟩

/-- Steps between two looks at the clock. -/
def clockInterval : Nat := 256

/-- How many seconds a clock can count. It has counted some when an evaluation
starts, so it cannot tell the end of a timeout this long. -/
def clockRange : Nat := Nat.pow 2 63 - 1

/-- The time since the start of an evaluation, by step. -/
abbrev Stopwatch := Nat → Duration

/-- A stopwatch on which no time passes. -/
def Stopwatch.still : Stopwatch := fun _ => .zero

structure Meter where
  /-- Nodes evaluated so far. -/
  steps : Nat
  /-- Nodes whose evaluation has begun and not ended. -/
  depth : Nat
  deriving Repr, DecidableEq

/-- What evaluation reads and does not change. -/
structure Context where
  locals : Dictionary Value
  bindings : Dictionary Value
  limits : Limits
  stopwatch : Stopwatch

abbrev Eval := Change Meter (Failure EvalError)

namespace Eval

variable {α : Type}

def fail (e : EvalError) : Eval α := throw (.error e)

/-- Counts a step. -/
def tick (c : Context) : Eval Unit := do
  modify fun m => { m with steps := m.steps + 1 }
  let m ← get
  if c.limits.maxSteps < m.steps then fail (.limit (.steps c.limits.maxSteps))
  else if m.steps % clockInterval = 0 ∧ c.limits.timeout.nanos ≤ (c.stopwatch m.steps).nanos then
    fail (.limit (.time c.limits.timeout))

/-- Closes a node after `p`, also when `p` fails. -/
def closing (p : Eval α) : Eval α := fun m =>
  match p m with
  | .ok a m' => .ok a { m' with depth := m'.depth - 1 }
  | .error f m' => .error f { m' with depth := m'.depth - 1 }

/-- Evaluates a node by `p`. -/
def atNode (c : Context) (p : Eval α) : Eval α := do
  tick c
  if maxHeight ≤ (← get).depth then fail (.limit (.depth maxHeight))
  else
    modify fun m => { m with depth := m.depth + 1 }
    closing p

end Eval

/-- The value of a name: a local one, else one bound by the caller, else a builtin. -/
def Context.resolve (c : Context) (name : String) : Outcome Value :=
  match Dictionary.find? name c.locals with
  | some v => .ok v
  | none =>
    match Dictionary.find? name c.bindings with
    | some v => .ok v
    | none =>
      if name = "Math" then .ok Value.math
      else
        match Builtin.ofName? name with
        | some b => .ok (.builtin b)
        | none => fail (.undefined (.name name))

mutual

def Tree.eval (c : Context) (t : Tree) : Eval Value :=
  Eval.atNode c <|
    match t with
    | .number n => pure (.number n)
    | .string s => pure (.string s)
    | .bool b => pure (.bool b)
    | .null => pure .null
    | .name s => Change.ofResult (c.resolve s)
    | .array items => do
      let values ← Tree.evalItems c items
      pure (.array values)
    | .record fields => do
      let values ← Tree.evalFields c fields
      pure (.ofFields values)
    | .unary op operand => do
      let v ← Tree.eval c operand
      match op with
      | .not => pure (.bool (!v.isTruthy))
      | .negate => Change.ofResult v.negate
    | .run first rest => do
      let v ← Tree.eval c first
      Tree.evalRun c v rest
    | .conditional condition yes no => do
      let v ← Tree.eval c condition
      if v.isTruthy then Tree.eval c yes else Tree.eval c no
    | .member target field => do
      let v ← Tree.eval c target
      Change.ofResult (v.member field)
    | .index target i => do
      let v ← Tree.eval c target
      let w ← Tree.eval c i
      Change.ofResult (v.index w)
    | .call callee arguments => do
      let v ← Tree.eval c callee
      match v with
      | .builtin b => do
        let values ← Tree.evalItems c arguments
        Change.ofResult (b.call values)
      | v => Eval.fail (.notCallable v)

def Tree.evalItems (c : Context) : List Tree → Eval (List Value)
  | [] => pure []
  | t :: ts => do
    let v ← Tree.eval c t
    let vs ← Tree.evalItems c ts
    pure (v :: vs)

def Tree.evalFields (c : Context) : List (String × Tree) → Eval (List (String × Value))
  | [] => pure []
  | (key, t) :: fields => do
    let v ← Tree.eval c t
    let vs ← Tree.evalFields c fields
    pure ((key, v) :: vs)

/-- Applies the operators of a run to `left` one after another. The operand of
`&&` or `||` is not evaluated when the left side decides. -/
def Tree.evalRun (c : Context) (left : Value) : List (BinaryOp × Tree) → Eval Value
  | [] => pure left
  | (op, t) :: rest => do
    let v ← match op with
      | .both => if left.isTruthy then Tree.eval c t else pure left
      | .either => if left.isTruthy then pure left else Tree.eval c t
      | .equal => do
        let right ← Tree.eval c t
        pure (.bool (left.same right))
      | .unequal => do
        let right ← Tree.eval c t
        pure (.bool (!left.same right))
      | .arithmetic op => do
        let right ← Tree.eval c t
        Change.ofResult (op.apply left right)
    Tree.evalRun c v rest

end

/-- Runs statements; `last` is the value of the last expression so far. -/
def runStatements (c : Context) (last : Option Value) : List Statement → Eval Value
  | [] =>
    match last with
    | some v => pure v
    | none => Eval.fail .empty
  | .define name t :: rest => do
    let v ← t.eval c
    runStatements { c with locals := Dictionary.insert name v c.locals } last rest
  | .yield t :: rest => do
    let v ← t.eval c
    runStatements c (some v) rest
  | .answer t :: _ => t.eval c

/-- The value of the first `return`, or else of the last expression. A timeout beyond
the range of the clock is a crash before the first step. -/
def Program.run (p : Program) (bindings : Dictionary Value) (limits : Limits)
    (stopwatch : Stopwatch) : Outcome Value :=
  if clockRange ≤ limits.timeout.seconds then .error .crash
  else
    match runStatements ⟨[], bindings, limits, stopwatch⟩ none p.statements ⟨0, 0⟩ with
    | .ok v _ => .ok v
    | .error f _ => .error f

/-- Whether a source compiles. -/
def check (source : String) : Except EvalError Unit := (compile source).map fun _ => ()

/-- Compiles and runs a source, whose value has to be a finite number. -/
def evaluate (source : String) (bindings : Dictionary Value) (limits : Limits)
    (stopwatch : Stopwatch) : Outcome Float :=
  match compile source with
  | .error e => fail e
  | .ok p =>
    match p.run bindings limits stopwatch with
    | .error f => .error f
    | .ok (.number n) => if n.isFinite then .ok n else fail (.notFinite (.number n))
    | .ok v => fail (.notFinite v)

/-- What expressions are evaluated with. -/
structure Engine where
  limits : Limits
  stopwatch : Stopwatch

def Engine.standard (stopwatch : Stopwatch) : Engine := ⟨.standard, stopwatch⟩

def Engine.evaluate (e : Engine) (source : String) (bindings : Dictionary Value) :
    Outcome Float :=
  Expr.evaluate source bindings e.limits e.stopwatch

end PoolScaling.Expr
