import PoolScaling.Expr.Eval
import PoolScaling.Proofs.Change

/-! Runs and nested operators.

`Nested` has the forms of a tree with every operator between just two operands, and
its evaluation is the ordinary recursive one, without limits. `Tree.nest` folds the
runs of a tree to the left, at every depth. Unless a limit is reached, a tree
evaluates to the same as its nested form (`eval_computes`): the loop over a run goes
on past an operand that `&&` or `||` skips, where the nested form returns from one
operator to the one around it. -/
namespace PoolScaling.Expr

/-- A fully nested expression. -/
inductive Nested where
  | number (n : Float)
  | string (s : String)
  | bool (b : Bool)
  | null
  | name (s : String)
  | array (items : List Nested)
  | record (fields : List (String × Nested))
  | unary (op : UnaryOp) (operand : Nested)
  | binary (op : BinaryOp) (left right : Nested)
  | conditional (condition yes no : Nested)
  | member (target : Nested) (field : String)
  | index (target index : Nested)
  | call (callee : Nested) (arguments : List Nested)

/-! ### Folding runs -/

mutual

/-- The nested form of a tree. -/
def Tree.nest : Tree → Nested
  | .number n => .number n
  | .string s => .string s
  | .bool b => .bool b
  | .null => .null
  | .name s => .name s
  | .array items => .array (Tree.nestItems items)
  | .record fields => .record (Tree.nestFields fields)
  | .unary op operand => .unary op operand.nest
  | .run first rest => Tree.nestRun first.nest rest
  | .conditional condition yes no => .conditional condition.nest yes.nest no.nest
  | .member target field => .member target.nest field
  | .index target i => .index target.nest i.nest
  | .call callee arguments => .call callee.nest (Tree.nestItems arguments)

def Tree.nestItems : List Tree → List Nested
  | [] => []
  | t :: ts => t.nest :: Tree.nestItems ts

def Tree.nestFields : List (String × Tree) → List (String × Nested)
  | [] => []
  | (key, t) :: fields => (key, t.nest) :: Tree.nestFields fields

/-- Folds a run to the left. -/
def Tree.nestRun (left : Nested) : List (BinaryOp × Tree) → Nested
  | [] => left
  | (op, t) :: rest => Tree.nestRun (.binary op left t.nest) rest

end

theorem Tree.nestRun_append {left : Nested} {r r' : List (BinaryOp × Tree)} :
    Tree.nestRun left (r ++ r') = Tree.nestRun (Tree.nestRun left r) r' := by
  induction r generalizing left with
  | nil => rfl
  | cons p r ih =>
    obtain ⟨op, t⟩ := p
    exact ih

/-! ### Ordinary evaluation -/

mutual

/-- The value of an expression. The right side of `&&` and `||` is evaluated when the
left side does not decide. -/
def Nested.eval (c : Context) : Nested → Outcome Value
  | .number n => pure (.number n)
  | .string s => pure (.string s)
  | .bool b => pure (.bool b)
  | .null => pure .null
  | .name s => c.resolve s
  | .array items => do
    let values ← Nested.evalItems c items
    pure (.array values)
  | .record fields => do
    let values ← Nested.evalFields c fields
    pure (.ofFields values)
  | .unary op operand => do
    let v ← Nested.eval c operand
    match op with
    | .not => pure (.bool (!v.isTruthy))
    | .negate => v.negate
  | .binary op left right => do
    let v ← Nested.eval c left
    match op with
    | .both => if v.isTruthy then Nested.eval c right else pure v
    | .either => if v.isTruthy then pure v else Nested.eval c right
    | .equal => do
      let w ← Nested.eval c right
      pure (.bool (v.same w))
    | .unequal => do
      let w ← Nested.eval c right
      pure (.bool (!v.same w))
    | .arithmetic op => do
      let w ← Nested.eval c right
      op.apply v w
  | .conditional condition yes no => do
    let v ← Nested.eval c condition
    if v.isTruthy then Nested.eval c yes else Nested.eval c no
  | .member target field => do
    let v ← Nested.eval c target
    v.member field
  | .index target i => do
    let v ← Nested.eval c target
    let w ← Nested.eval c i
    v.index w
  | .call callee arguments => do
    let v ← Nested.eval c callee
    match v with
    | .builtin b => do
      let values ← Nested.evalItems c arguments
      b.call values
    | v => fail (.notCallable v)

def Nested.evalItems (c : Context) : List Nested → Outcome (List Value)
  | [] => pure []
  | t :: ts => do
    let v ← Nested.eval c t
    let vs ← Nested.evalItems c ts
    pure (v :: vs)

def Nested.evalFields (c : Context) : List (String × Nested) → Outcome (List (String × Value))
  | [] => pure []
  | (key, t) :: fields => do
    let v ← Nested.eval c t
    let vs ← Nested.evalFields c fields
    pure ((key, v) :: vs)

end

/-! ### Evaluation up to limits -/

namespace Eval

variable {α β : Type} {c : Context} {x : Eval α} {f : α → Eval β} {o : Outcome α} {g : α → Outcome β}

/-- Whether an evaluation ended at a limit of steps, time or depth. -/
def AtLimit (o : Outcome α) : Prop := ∃ l, o = Expr.fail (.limit l)

/-- Whether an evaluation has the given outcome wherever it does not end at a limit. -/
def Computes (x : Eval α) (o : Outcome α) : Prop :=
  ∀ m, AtLimit (Change.result (x m)) ∨ Change.result (x m) = o

theorem computes_pure (a : α) : Computes (pure a) (pure a) := fun _ => .inr rfl

theorem computes_ofResult (o : Outcome α) : Computes (Change.ofResult o) o := by
  intro m
  cases o <;> exact .inr rfl

theorem computes_fail (e : EvalError) : Computes (fail e : Eval α) (Expr.fail e) := fun _ => .inr rfl

/-- Steps with outcomes follow each other as the outcomes do. -/
theorem Computes.bind (h : Computes x o) (hf : ∀ a, Computes (f a) (g a)) : Computes (x >>= f) (o >>= g) := by
  intro m
  have hx := h m
  cases hxm : x m with
  | ok a m' =>
    rw [hxm] at hx
    rw [bind_ok hxm]
    rcases hx with ⟨l, hl⟩ | rfl
    · cases hl
    · exact hf a m'
  | error e m' =>
    rw [hxm] at hx
    rw [bind_error hxm]
    rcases hx with ⟨l, hl⟩ | rfl
    · cases hl
      exact .inl ⟨l, rfl⟩
    · exact .inr rfl

theorem tick_eq (m : Meter) :
    (∃ l m', tick c m = .error (.error (.limit l)) m') ∨ ∃ m', tick c m = .ok () m' := by
  unfold tick
  rw [modify_bind, get_bind]
  split
  · exact .inl ⟨_, _, rfl⟩
  · split
    · exact .inl ⟨_, _, rfl⟩
    · exact .inr ⟨_, rfl⟩

theorem result_closing (m : Meter) : Change.result (closing x m) = Change.result (x m) := by
  unfold closing
  cases x m <;> rfl

/-- The bookkeeping of a node only adds limits. -/
theorem Computes.atNode (h : Computes x o) : Computes (atNode c x) o := by
  intro m
  unfold Eval.atNode
  rcases tick_eq (c := c) m with ⟨l, m', hm'⟩ | ⟨m', hm'⟩
  · rw [bind_error hm']
    exact .inl ⟨l, rfl⟩
  · rw [bind_ok hm', get_bind]
    split
    · exact .inl ⟨.depth maxHeight, rfl⟩
    · rw [modify_bind, result_closing]
      exact h _

/-- One operator of a run: its value from that of the left side and from the operand. -/
def combine (left : Value) (op : BinaryOp) (operand : Eval Value) : Eval Value :=
  match op with
  | .both => if left.isTruthy then operand else pure left
  | .either => if left.isTruthy then pure left else operand
  | .equal => do
    let right ← operand
    pure (.bool (left.same right))
  | .unequal => do
    let right ← operand
    pure (.bool (!left.same right))
  | .arithmetic op => do
    let right ← operand
    Change.ofResult (op.apply left right)

end Eval

/-! ### A tree and its nested form -/

open Eval

variable {c : Context}

theorem evalRun_cons {left : Value} {op : BinaryOp} {t : Tree} {rest : List (BinaryOp × Tree)} :
    Tree.evalRun c left ((op, t) :: rest) =
      combine left op (t.eval c) >>= fun v => Tree.evalRun c v rest := by
  cases op with
  | both | either =>
    rw [Tree.evalRun, combine]
    split <;> rfl
  | equal | unequal | arithmetic op =>
    rw [Tree.evalRun, combine, bind_assoc]

/-- An operator of a run is a nested operator over what stands before it. -/
theorem combine_computes {x y : Eval Value} {left right : Nested} {op : BinaryOp}
    (hx : Computes x (left.eval c)) (hy : Computes y (right.eval c)) :
    Computes (x >>= fun v => combine v op y) ((Nested.binary op left right).eval c) := by
  rw [Nested.eval]
  refine hx.bind fun v => ?_
  cases op with
  | both =>
    rw [combine]
    split
    · exact hy
    · exact computes_pure v
  | either =>
    rw [combine]
    split
    · exact computes_pure v
    · exact hy
  | equal => exact hy.bind fun w => computes_pure _
  | unequal => exact hy.bind fun w => computes_pure _
  | arithmetic op => exact hy.bind fun w => computes_ofResult _

mutual

/-- **Runs mean what nested operators mean.** -/
theorem Tree.eval_computes (t : Tree) : Computes (t.eval c) (t.nest.eval c) := by
  cases t with
  | number | string | bool | null =>
    rw [Tree.eval, Tree.nest, Nested.eval]
    exact (computes_pure _).atNode
  | name s =>
    rw [Tree.eval, Tree.nest, Nested.eval]
    exact (computes_ofResult _).atNode
  | array items =>
    rw [Tree.eval, Tree.nest, Nested.eval]
    exact ((Tree.evalItems_computes items).bind fun _ => computes_pure _).atNode
  | record fields =>
    rw [Tree.eval, Tree.nest, Nested.eval]
    exact ((Tree.evalFields_computes fields).bind fun _ => computes_pure _).atNode
  | unary op operand =>
    rw [Tree.eval, Tree.nest, Nested.eval]
    refine ((Tree.eval_computes operand).bind fun v => ?_).atNode
    cases op with
    | negate => exact computes_ofResult _
    | not => exact computes_pure _
  | run first rest =>
    rw [Tree.eval, Tree.nest]
    exact (Tree.evalRun_computes (Tree.eval_computes first) rest).atNode
  | conditional condition yes no =>
    rw [Tree.eval, Tree.nest, Nested.eval]
    refine ((Tree.eval_computes condition).bind fun v => ?_).atNode
    split
    · exact Tree.eval_computes yes
    · exact Tree.eval_computes no
  | member target field =>
    rw [Tree.eval, Tree.nest, Nested.eval]
    exact ((Tree.eval_computes target).bind fun _ => computes_ofResult _).atNode
  | index target i =>
    rw [Tree.eval, Tree.nest, Nested.eval]
    exact ((Tree.eval_computes target).bind fun _ =>
      (Tree.eval_computes i).bind fun _ => computes_ofResult _).atNode
  | call callee arguments =>
    rw [Tree.eval, Tree.nest, Nested.eval]
    refine ((Tree.eval_computes callee).bind fun v => ?_).atNode
    cases v with
    | builtin b => exact (Tree.evalItems_computes arguments).bind fun _ => computes_ofResult _
    | null | bool | number | string | array | record => exact computes_fail _

theorem Tree.evalItems_computes (ts : List Tree) :
    Computes (Tree.evalItems c ts) (Nested.evalItems c (Tree.nestItems ts)) := by
  cases ts with
  | nil =>
    rw [Tree.evalItems, Tree.nestItems, Nested.evalItems]
    exact computes_pure _
  | cons t ts =>
    rw [Tree.evalItems, Tree.nestItems, Nested.evalItems]
    exact (Tree.eval_computes t).bind fun _ => (Tree.evalItems_computes ts).bind fun _ => computes_pure _

theorem Tree.evalFields_computes (fields : List (String × Tree)) :
    Computes (Tree.evalFields c fields) (Nested.evalFields c (Tree.nestFields fields)) := by
  match fields with
  | [] =>
    rw [Tree.evalFields, Tree.nestFields, Nested.evalFields]
    exact computes_pure _
  | (key, t) :: fields =>
    rw [Tree.evalFields, Tree.nestFields, Nested.evalFields]
    exact (Tree.eval_computes t).bind fun _ =>
      (Tree.evalFields_computes fields).bind fun _ => computes_pure _

/-- Going on with a run from what computes `left` is folding the run onto `left`. -/
theorem Tree.evalRun_computes {x : Eval Value} {left : Nested} (h : Computes x (left.eval c))
    (rest : List (BinaryOp × Tree)) :
    Computes (x >>= fun v => Tree.evalRun c v rest) ((Tree.nestRun left rest).eval c) := by
  -- What stands before `rest` can be any computation, so one operator is moved into it a time.
  match rest with
  | [] =>
    simp only [Tree.nestRun, Tree.evalRun, bind_pure]
    exact h
  | (op, t) :: rest =>
    simp only [Tree.nestRun, evalRun_cons, ← bind_assoc]
    exact Tree.evalRun_computes (combine_computes h (Tree.eval_computes t)) rest

end

end PoolScaling.Expr
