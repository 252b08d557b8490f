import PoolScaling.Proofs.Dictionary
import PoolScaling.Proofs.Expr.Limits

/-! What an expression depends on.

Evaluation looks names up and sees nothing else of its bindings, so bindings that agree on
the names of a program give the same run, step by step (`Program.run_congr`). Apart from its
limits, a run depends on the clock only through a timeout (`Program.run_clock`). -/
namespace PoolScaling.Expr
open Eval

/-! ### Names -/

mutual

/-- The names that evaluating a tree may look up. -/
def Tree.names : Tree → List String
  | .number _ | .string _ | .bool _ | .null => []
  | .name s => [s]
  | .array items => Tree.namesOfItems items
  | .record fields => Tree.namesOfFields fields
  | .unary _ operand => Tree.names operand
  | .run first rest => Tree.names first ++ Tree.namesOfRun rest
  | .conditional condition yes no => Tree.names condition ++ (Tree.names yes ++ Tree.names no)
  | .member target _ => Tree.names target
  | .index target i => Tree.names target ++ Tree.names i
  | .call callee arguments => Tree.names callee ++ Tree.namesOfItems arguments

def Tree.namesOfItems : List Tree → List String
  | [] => []
  | t :: ts => Tree.names t ++ Tree.namesOfItems ts

def Tree.namesOfFields : List (String × Tree) → List String
  | [] => []
  | (_, t) :: fields => Tree.names t ++ Tree.namesOfFields fields

def Tree.namesOfRun : List (BinaryOp × Tree) → List String
  | [] => []
  | (_, t) :: rest => Tree.names t ++ Tree.namesOfRun rest

end

/-- The names that running a program may look up. -/
def Program.names (p : Program) : List String := p.statements.flatMap fun s => s.tree.names

/-- The names that occur in a source as expressions. Those of fields are not looked up, and
neither are those that definitions give. -/
def namesIn (source : String) : List String :=
  match compile source with
  | .ok p => p.names
  | .error _ => []

/-! ### Contexts -/

/-- Contexts of one engine in which the names `xs` mean the same. -/
structure Context.Agrees (xs : List String) (c c' : Context) : Prop where
  engine : c.engine = c'.engine
  resolve : ∀ x ∈ xs, c.resolve x = c'.resolve x

theorem Context.resolve_define (c : Context) (name : String) (v : Value) (x : String) :
    ({ c with locals := Dictionary.insert name v c.locals } : Context).resolve x =
      if x = name then .ok v else c.resolve x := by
  unfold resolve
  dsimp only
  rw [Dictionary.find?_insert]
  by_cases hx : x = name
  · rw [if_pos hx, if_pos hx]
  · rw [if_neg hx, if_neg hx]

variable {xs : List String} {c c' : Context}

/-- A definition gives a name the same meaning in both. -/
theorem Context.Agrees.define (h : c.Agrees xs c') (name : String) (v : Value) :
    ({ c with locals := Dictionary.insert name v c.locals } : Context).Agrees xs
      { c' with locals := Dictionary.insert name v c'.locals } := by
  refine ⟨h.engine, fun x hx => ?_⟩
  rw [resolve_define, resolve_define, h.resolve x hx]

theorem Eval.atNode_congr {α : Type} (h : c.engine = c'.engine) (x : Eval α) : atNode c x = atNode c' x := by
  obtain ⟨locals, bindings, limits, stopwatch⟩ := c
  obtain ⟨locals', bindings', limits', stopwatch'⟩ := c'
  cases h
  rfl

/-! ### Trees -/

mutual

/-- **Names.** A tree has the same evaluation wherever its names mean the same. -/
theorem Tree.eval_congr (h : c.Agrees xs c') (t : Tree) (ht : t.names ⊆ xs) : t.eval c = t.eval c' := by
  cases t with
  | number | string | bool | null =>
    rw [Tree.eval, Tree.eval, atNode_congr h.engine]
  | name s =>
    rw [Tree.eval, Tree.eval, atNode_congr h.engine, h.resolve s (ht (List.mem_singleton_self s))]
  | array items =>
    rw [Tree.eval, Tree.eval, atNode_congr h.engine, Tree.evalItems_congr h items ht]
  | record fields =>
    rw [Tree.eval, Tree.eval, atNode_congr h.engine, Tree.evalFields_congr h fields ht]
  | unary op operand =>
    rw [Tree.eval, Tree.eval, atNode_congr h.engine, Tree.eval_congr h operand ht]
  | run first rest =>
    obtain ⟨hfirst, hrest⟩ := List.append_subset.mp ht
    simp only [Tree.eval, atNode_congr h.engine, Tree.eval_congr h first hfirst,
      fun v => Tree.evalRun_congr h v rest hrest]
  | conditional condition yes no =>
    obtain ⟨hcondition, hbranches⟩ := List.append_subset.mp ht
    obtain ⟨hyes, hno⟩ := List.append_subset.mp hbranches
    rw [Tree.eval, Tree.eval, atNode_congr h.engine, Tree.eval_congr h condition hcondition,
      Tree.eval_congr h yes hyes, Tree.eval_congr h no hno]
  | member target field =>
    rw [Tree.eval, Tree.eval, atNode_congr h.engine, Tree.eval_congr h target ht]
  | index target i =>
    obtain ⟨htarget, hi⟩ := List.append_subset.mp ht
    rw [Tree.eval, Tree.eval, atNode_congr h.engine, Tree.eval_congr h target htarget, Tree.eval_congr h i hi]
  | call callee arguments =>
    obtain ⟨hcallee, harguments⟩ := List.append_subset.mp ht
    rw [Tree.eval, Tree.eval, atNode_congr h.engine, Tree.eval_congr h callee hcallee,
      Tree.evalItems_congr h arguments harguments]

theorem Tree.evalItems_congr (h : c.Agrees xs c') (ts : List Tree) (hts : Tree.namesOfItems ts ⊆ xs) :
    Tree.evalItems c ts = Tree.evalItems c' ts := by
  cases ts with
  | nil => rw [Tree.evalItems, Tree.evalItems]
  | cons t ts =>
    obtain ⟨ht, hrest⟩ := List.append_subset.mp hts
    rw [Tree.evalItems, Tree.evalItems, Tree.eval_congr h t ht, Tree.evalItems_congr h ts hrest]

theorem Tree.evalFields_congr (h : c.Agrees xs c') (fields : List (String × Tree))
    (hfields : Tree.namesOfFields fields ⊆ xs) : Tree.evalFields c fields = Tree.evalFields c' fields := by
  match fields with
  | [] => rw [Tree.evalFields, Tree.evalFields]
  | (key, t) :: fields =>
    obtain ⟨ht, hrest⟩ := List.append_subset.mp hfields
    rw [Tree.evalFields, Tree.evalFields, Tree.eval_congr h t ht, Tree.evalFields_congr h fields hrest]

theorem Tree.evalRun_congr (h : c.Agrees xs c') (left : Value) (rest : List (BinaryOp × Tree))
    (hrest : Tree.namesOfRun rest ⊆ xs) : Tree.evalRun c left rest = Tree.evalRun c' left rest := by
  match rest with
  | [] => rw [Tree.evalRun, Tree.evalRun]
  | (op, t) :: rest =>
    obtain ⟨ht, hrest⟩ := List.append_subset.mp hrest
    simp only [evalRun_cons, Tree.eval_congr h t ht, fun v => Tree.evalRun_congr h v rest hrest]

end

/-! ### Programs -/

theorem runStatements_congr (h : c.Agrees xs c') (last : Option Value) {ss : List Statement}
    (hss : ∀ s ∈ ss, s.tree.names ⊆ xs) : runStatements c last ss = runStatements c' last ss := by
  induction ss generalizing c c' last with
  | nil => rfl
  | cons s ss ih =>
    have hs := hss s List.mem_cons_self
    have hrest := fun s hs => hss s (List.mem_cons_of_mem _ hs)
    cases s with
    | define name t => simp only [runStatements, Tree.eval_congr h t hs, fun v => ih (h.define name v) last hrest]
    | yield t => simp only [runStatements, Tree.eval_congr h t hs, fun v => ih h (some v) hrest]
    | answer t => simp only [runStatements, Tree.eval_congr h t hs]

/-- **Programs.** Bindings that agree on its names give a program the same run. -/
theorem Program.run_congr {p : Program} {bindings bindings' : Dictionary Value}
    (h : ∀ x ∈ p.names, Dictionary.find? x bindings = Dictionary.find? x bindings') (limits : Limits)
    (stopwatch : Stopwatch) : p.run bindings limits stopwatch = p.run bindings' limits stopwatch := by
  have hagrees : Context.Agrees p.names ⟨[], bindings, limits, stopwatch⟩ ⟨[], bindings', limits, stopwatch⟩ := by
    refine ⟨rfl, fun x hx => ?_⟩
    simp only [Context.resolve, h x hx]
  have hstatements : ∀ s ∈ p.statements, s.tree.names ⊆ p.names := fun s hs x hx =>
    List.mem_flatMap.mpr ⟨s, hs, hx⟩
  rw [run, run, runStatements_congr hagrees none hstatements]

/-! ### Clocks -/

def EvalError.isTimeout : EvalError → Bool
  | .limit (.time _) => true
  | _ => false

/-- Whether an evaluation ended at its timeout. -/
def timedOut {α : Type} : Outcome α → Bool
  | .error (.error e) => e.isTimeout
  | _ => false

/-- **Clocks.** Two runs within the same limits that do not end at their timeout have the
same outcome, whatever their clocks show. -/
theorem Program.run_clock {p : Program} (hp : p.Bounded) (bindings : Dictionary Value) (limits : Limits)
    {stopwatch stopwatch' : Stopwatch} (h : timedOut (p.run bindings limits stopwatch) = false)
    (h' : timedOut (p.run bindings limits stopwatch') = false) :
    p.run bindings limits stopwatch = p.run bindings limits stopwatch' := by
  by_cases hrange : limits.timeout.seconds < clockRange
  · obtain ⟨n, -, o, -, htakes⟩ := runStatements_affordable ⟨[], bindings, .standard, .still⟩ none hp
    have halarm : ∀ stopwatch, timedOut (p.run bindings limits stopwatch) = false →
        (Engine.mk limits stopwatch).alarmWithin? 0 n =
          if limits.maxSteps < n then some (.steps limits.maxSteps) else none := by
      intro stopwatch hclock
      refine Engine.alarmWithin?_of_not_time fun d hd => ?_
      rw [run_of_takes htakes stopwatch hrange, hd] at hclock
      cases hclock
    rw [run_of_takes htakes stopwatch hrange, run_of_takes htakes stopwatch' hrange, halarm _ h, halarm _ h']
  · rw [run, run, if_pos (Nat.not_lt.mp hrange), if_pos (Nat.not_lt.mp hrange)]

theorem timedOut_run {source : String} {p : Program} (hp : compile source = .ok p) {bindings : Dictionary Value}
    {limits : Limits} {stopwatch : Stopwatch} (h : timedOut (evaluate source bindings limits stopwatch) = false) :
    timedOut (p.run bindings limits stopwatch) = false := by
  unfold evaluate at h
  rw [hp] at h
  dsimp only at h
  cases hrun : p.run bindings limits stopwatch with
  | error failure =>
    rw [hrun] at h
    cases failure <;> exact h
  | ok v => rfl

/-- **Evaluations.** Two evaluations of a source within the same limits that do not end at
their timeout have the same outcome, if their bindings agree on its names. -/
theorem evaluate_congr {source : String} {bindings bindings' : Dictionary Value} {limits : Limits}
    {stopwatch stopwatch' : Stopwatch}
    (hnames : ∀ x ∈ namesIn source, Dictionary.find? x bindings = Dictionary.find? x bindings')
    (h : timedOut (evaluate source bindings limits stopwatch) = false)
    (h' : timedOut (evaluate source bindings' limits stopwatch') = false) :
    evaluate source bindings limits stopwatch = evaluate source bindings' limits stopwatch' := by
  cases hp : compile source with
  | error e => simp only [evaluate, hp]
  | ok p =>
    rw [namesIn, hp] at hnames
    have hbindings := fun stopwatch => p.run_congr hnames limits stopwatch
    have hclock := p.run_clock (bounded_of_compile hp) bindings' limits
      (hbindings stopwatch ▸ timedOut_run hp h) (timedOut_run hp h')
    simp only [evaluate, hp, hbindings, hclock]

end PoolScaling.Expr
