import PoolScaling.Proofs.Expr.Nesting

/-! What an evaluation reports.

An operation on values, the look-up of a name and a call among them, reports what is
wrong with these values and nothing else (`Builtin.call_operational`). A nested expression
consists of operations, so evaluating it does the same (`Nested.eval_operational`), and a
tree only adds limits (`Tree.eval_error`). Defects of a source are found before a run and
never in it; a run that reports to be empty is one of definitions alone
(`runStatements_error`, `evaluate_error`). -/
namespace PoolScaling.Expr

/-- Whether an error is about the values of an operation. -/
@[simp] def EvalError.isOperational : EvalError → Bool
  | undefined _ | mismatch _ | notCallable _ | arity _ _ _ | badArgument _ _ => true
  | malformed _ | empty | notFinite _ | limit _ => false

/-- Whether the error that an outcome reports, if any, is about the values of an operation. -/
def Operational {α : Type} (o : Outcome α) : Prop := ∀ e, o = fail e → e.isOperational = true

section Outcome

variable {α β : Type} {o : Outcome α} {f : α → Outcome β}

@[simp] theorem operational_ok (a : α) : Operational (.ok a : Outcome α) := by
  intro e h
  cases h

@[simp] theorem operational_crash : Operational (.error .crash : Outcome α) := by
  intro e h
  cases h

@[simp] theorem operational_fail_iff {e : EvalError} :
    Operational (fail e : Outcome α) ↔ e.isOperational = true := by
  constructor
  · intro h
    exact h e rfl
  · intro h e' h'
    cases h'
    exact h

theorem Operational.bind (ho : Operational o) (hf : ∀ a, Operational (f a)) : Operational (o >>= f) := by
  cases o with
  | ok a => exact hf a
  | error failure =>
    intro e h
    cases h
    exact ho e rfl

theorem operational_mapM {g : β → Outcome α} (hg : ∀ b, Operational (g b)) (bs : List β) :
    Operational (bs.mapM g) := by
  induction bs with
  | nil => exact operational_ok []
  | cons b bs ih =>
    rw [List.mapM_cons]
    exact (hg b).bind fun a => ih.bind fun as => operational_ok _

end Outcome

/-! ### Operations -/

theorem Context.resolve_operational (c : Context) (name : String) : Operational (c.resolve name) := by
  unfold resolve
  repeat' split
  all_goals simp

theorem Arithmetic.apply_operational (op : Arithmetic) (left right : Value) :
    Operational (op.apply left right) := by
  unfold apply
  dsimp only
  repeat' split
  all_goals simp

namespace Value

theorem negate_operational (v : Value) : Operational v.negate := by
  cases v <;> simp [negate]

theorem member_operational (v : Value) (field : String) : Operational (v.member field) := by
  unfold member
  repeat' split
  all_goals simp

theorem index_operational (v i : Value) : Operational (v.index i) := by
  unfold index
  split
  · repeat' split
    all_goals simp
  · exact member_operational _ _
  · simp

end Value

namespace Builtin

variable (b : Builtin)

theorem numberOf_operational (v : Value) : Operational (b.numberOf v) := by
  cases v <;> simp [numberOf]

theorem numbersOf_operational (arguments : List Value) : Operational (b.numbersOf arguments) := by
  unfold numbersOf
  split <;> exact operational_mapM b.numberOf_operational _

theorem someNumbersOf_operational (arguments : List Value) : Operational (b.someNumbersOf arguments) := by
  refine (b.numbersOf_operational arguments).bind fun ns => ?_
  split <;> simp

theorem onNumber_operational (f : Float → Float) (arguments : List Value) :
    Operational (b.onNumber f arguments) := by
  unfold onNumber
  split
  · exact (b.numberOf_operational _).bind fun n => operational_ok _
  · simp [wrongCount]

theorem pluckFrom_operational (field : String) (items : List Value) : Operational (pluckFrom field items) := by
  refine operational_mapM (fun item => ?_) items
  repeat' split
  all_goals simp

/-- **What a builtin reports** is wrong with its arguments. -/
theorem call_operational (arguments : List Value) : Operational (b.call arguments) := by
  cases b with
  | max | min | avg => exact (someNumbersOf_operational _ _).bind fun ns => operational_ok _
  | sum => exact (numbersOf_operational _ _).bind fun ns => operational_ok _
  | abs | ceil | floor | round | sqrt => exact onNumber_operational _ _ _
  | count =>
    unfold call
    dsimp only
    split <;> simp [wrongCount]
  | pow =>
    unfold call
    dsimp only
    split
    · exact (numberOf_operational _ _).bind fun x =>
        (numberOf_operational _ _).bind fun y => operational_ok _
    · simp [wrongCount]
  | clamp =>
    unfold call
    dsimp only
    split
    · refine (numberOf_operational _ _).bind fun x =>
        (numberOf_operational _ _).bind fun lo =>
          (numberOf_operational _ _).bind fun hi => ?_
      repeat' split
      all_goals simp
    · simp [wrongCount]
  | pluck =>
    unfold call
    dsimp only
    split
    · exact (pluckFrom_operational _ _).bind fun values => operational_ok _
    · simp
    · simp [wrongCount]

end Builtin

/-! ### Expressions -/

mutual

theorem Nested.eval_operational (c : Context) (t : Nested) : Operational (t.eval c) := by
  cases t with
  | number | string | bool | null => exact operational_ok _
  | name s => exact c.resolve_operational s
  | array items => exact (Nested.evalItems_operational c items).bind fun _ => operational_ok _
  | record fields => exact (Nested.evalFields_operational c fields).bind fun _ => operational_ok _
  | unary op operand =>
    refine (Nested.eval_operational c operand).bind fun v => ?_
    cases op with
    | not => exact operational_ok _
    | negate => exact v.negate_operational
  | binary op left right =>
    refine (Nested.eval_operational c left).bind fun v => ?_
    have hright := Nested.eval_operational c right
    cases op with
    | both =>
      dsimp only
      split
      · exact hright
      · exact operational_ok _
    | either =>
      dsimp only
      split
      · exact operational_ok _
      · exact hright
    | equal | unequal => exact hright.bind fun w => operational_ok _
    | arithmetic op => exact hright.bind fun w => op.apply_operational v w
  | conditional condition yes no =>
    refine (Nested.eval_operational c condition).bind fun v => ?_
    split
    · exact Nested.eval_operational c yes
    · exact Nested.eval_operational c no
  | member target field =>
    exact (Nested.eval_operational c target).bind fun v => v.member_operational field
  | index target i =>
    exact (Nested.eval_operational c target).bind fun v =>
      (Nested.eval_operational c i).bind fun w => v.index_operational w
  | call callee arguments =>
    refine (Nested.eval_operational c callee).bind fun v => ?_
    cases v with
    | builtin b => exact (Nested.evalItems_operational c arguments).bind fun vs => b.call_operational vs
    | null | bool | number | string | array | record => exact operational_fail_iff.mpr rfl

theorem Nested.evalItems_operational (c : Context) (ts : List Nested) : Operational (Nested.evalItems c ts) := by
  cases ts with
  | nil => exact operational_ok _
  | cons t ts =>
    exact (Nested.eval_operational c t).bind fun _ =>
      (Nested.evalItems_operational c ts).bind fun _ => operational_ok _

theorem Nested.evalFields_operational (c : Context) (fields : List (String × Nested)) :
    Operational (Nested.evalFields c fields) := by
  match fields with
  | [] => exact operational_ok _
  | (key, t) :: fields =>
    exact (Nested.eval_operational c t).bind fun _ =>
      (Nested.evalFields_operational c fields).bind fun _ => operational_ok _

end

/-- **What a tree reports** is about values, or a limit. -/
theorem Tree.eval_error {c : Context} {t : Tree} {m m' : Meter} {e : EvalError}
    (h : t.eval c m = .error (.error e) m') : e.isOperational = true ∨ ∃ l, e = .limit l := by
  rcases Tree.eval_computes t m with ⟨l, hl⟩ | hnest
  · rw [h] at hl
    cases hl
    exact .inr ⟨l, rfl⟩
  · rw [h] at hnest
    exact .inl (Nested.eval_operational c t.nest e hnest.symm)

/-! ### Programs -/

/-- Whether a statement only gives a name to a value. -/
def Statement.isDefinition : Statement → Bool
  | define _ _ => true
  | yield _ | answer _ => false

/-- A statement whose tree fails is the last. -/
theorem runStatements_of_error {c : Context} {last : Option Value} {s : Statement} {ss : List Statement}
    {m m' : Meter} {failure : Failure EvalError} (h : s.tree.eval c m = .error failure m') :
    runStatements c last (s :: ss) m = .error failure m' := by
  cases s with
  | define | yield => exact bind_error h
  | answer => exact h

/-- **What statements report** is about values, or a limit, or that they are definitions
alone. -/
theorem runStatements_error {c : Context} {last : Option Value} {ss : List Statement} {m m' : Meter}
    {e : EvalError} (h : runStatements c last ss m = .error (.error e) m') :
    (e.isOperational = true ∨ ∃ l, e = .limit l) ∨
      (e = .empty ∧ last = none ∧ ∀ s ∈ ss, s.isDefinition = true) := by
  induction ss generalizing c last m with
  | nil =>
    cases last with
    | some v => cases h
    | none =>
      cases h
      exact .inr ⟨rfl, rfl, fun s hs => absurd hs List.not_mem_nil⟩
  | cons s ss ih =>
    cases hs : s.tree.eval c m with
    | error failure m₁ =>
      rw [runStatements_of_error hs] at h
      cases h
      exact .inl (Tree.eval_error hs)
    | ok v m₁ =>
      cases s with
      | define name t =>
        rw [runStatements, bind_ok (show t.eval c m = _ from hs)] at h
        refine (ih h).imp_right fun ⟨hempty, hlast, hrest⟩ => ⟨hempty, hlast, ?_⟩
        exact List.forall_mem_cons.mpr ⟨rfl, hrest⟩
      | yield t =>
        rw [runStatements, bind_ok (show t.eval c m = _ from hs)] at h
        rcases ih h with hvalues | ⟨-, hlast, -⟩
        · exact .inl hvalues
        · cases hlast
      | answer t =>
        rw [runStatements, show t.eval c m = _ from hs] at h
        cases h

variable {bindings : Dictionary Value} {limits : Limits} {stopwatch : Stopwatch}

theorem Program.run_error {p : Program} {e : EvalError}
    (h : p.run bindings limits stopwatch = fail e) :
    (e.isOperational = true ∨ ∃ l, e = .limit l) ∨
      (e = .empty ∧ ∀ s ∈ p.statements, s.isDefinition = true) := by
  unfold run at h
  split at h
  · cases h
  · split at h
    · cases h
    · rename_i hrun
      cases h
      exact (runStatements_error hrun).imp_right fun ⟨hempty, _, hss⟩ => ⟨hempty, hss⟩

/-- **What evaluating a source reports.** A source that compiles is no longer malformed, and
it is empty only if it consists of definitions. -/
theorem evaluate_error {source : String} {p : Program} {e : EvalError} (hp : compile source = .ok p)
    (h : evaluate source bindings limits stopwatch = fail e) :
    (∀ d, e ≠ .malformed d) ∧ (e = .empty → ∀ s ∈ p.statements, s.isDefinition = true) := by
  unfold evaluate at h
  rw [hp] at h
  dsimp only at h
  split at h
  · rename_i hrun
    cases h
    rcases p.run_error hrun with (hvalues | ⟨l, rfl⟩) | ⟨rfl, hss⟩
    · constructor
      · rintro d rfl
        cases hvalues
      · rintro rfl
        cases hvalues
    · exact ⟨nofun, nofun⟩
    · exact ⟨nofun, fun _ => hss⟩
  · split at h
    · cases h
    · cases h
      exact ⟨nofun, nofun⟩
  · cases h
    exact ⟨nofun, nofun⟩

end PoolScaling.Expr
