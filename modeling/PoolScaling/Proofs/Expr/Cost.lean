import PoolScaling.Proofs.Expr.Errors
import PoolScaling.Proofs.Expr.Height

/-! The cost of an evaluation.

Limits decide how far an evaluation gets and nothing else: without them it takes a
fixed number of steps to a fixed outcome, which no operation makes a limit
(`Builtin.call_operational`). Within limits it is either the same, or ended by the
first limit that one of these steps runs into (`Takes`). A tree takes a step at most
for each of its nodes (`Tree.eval_affordable`). -/
namespace PoolScaling.Expr
open Eval

theorem Operational.not_atLimit {α : Type} {o : Outcome α} (h : Operational o) : ¬ AtLimit o := by
  rintro ⟨l, hl⟩
  cases h _ hl

/-! ### Steps -/

/-- The limit that a step runs into, if any. -/
def Engine.alarm? (e : Engine) (step : Nat) : Option Limit :=
  if e.limits.maxSteps < step then some (.steps e.limits.maxSteps)
  else if step % clockInterval = 0 ∧ e.limits.timeout.nanos ≤ (e.stopwatch step).nanos then
    some (.time e.limits.timeout)
  else none

/-- The first limit that one of the `n` steps after `s` runs into, if any. -/
def Engine.alarmWithin? (e : Engine) (s : Nat) : Nat → Option Limit
  | 0 => none
  | n + 1 => (e.alarmWithin? s n).or (e.alarm? (s + n + 1))

theorem Engine.alarmWithin?_add (e : Engine) (s m n : Nat) :
    e.alarmWithin? s (m + n) = (e.alarmWithin? s m).or (e.alarmWithin? (s + m) n) := by
  induction n with
  | zero => simp [alarmWithin?]
  | succ n ih =>
    show (e.alarmWithin? s (m + n)).or (e.alarm? (s + (m + n) + 1)) = _
    rw [ih, Option.or_assoc, ← Nat.add_assoc]
    rfl

/-- The limits and the clock of a context. -/
def Context.engine (c : Context) : Engine := ⟨c.limits, c.stopwatch⟩

/-- A context with the limits and the clock of an engine. -/
def Context.under (c : Context) (e : Engine) : Context :=
  { c with limits := e.limits, stopwatch := e.stopwatch }

@[simp] theorem Context.engine_under (c : Context) (e : Engine) : (c.under e).engine = e := rfl

@[simp] theorem Context.under_engine (c : Context) : c.under c.engine = c := rfl

namespace Eval

variable {α β : Type} {x : Engine → Eval α} {f : α → Engine → Eval β} {o : Outcome α} {c : Context}
  {height n b k : Nat}

theorem tick_alarm (c : Context) (m : Meter) :
    tick c m = match c.engine.alarm? (m.steps + 1) with
      | some l => .error (.error (.limit l)) { m with steps := m.steps + 1 }
      | none => .ok () { m with steps := m.steps + 1 } := by
  unfold tick
  rw [modify_bind, get_bind]
  show (if c.limits.maxSteps < m.steps + 1 then fail (.limit (.steps c.limits.maxSteps))
    else if (m.steps + 1) % clockInterval = 0 ∧ c.limits.timeout.nanos ≤ (c.stopwatch (m.steps + 1)).nanos then
      fail (.limit (.time c.limits.timeout))
    else pure () : Eval Unit) _ = _
  by_cases hsteps : c.limits.maxSteps < m.steps + 1
  · have halarm : c.engine.alarm? (m.steps + 1) = some (.steps c.limits.maxSteps) := if_pos hsteps
    rw [if_pos hsteps, halarm]
    rfl
  by_cases htime : (m.steps + 1) % clockInterval = 0 ∧ c.limits.timeout.nanos ≤ (c.stopwatch (m.steps + 1)).nanos
  · have halarm : c.engine.alarm? (m.steps + 1) = some (.time c.limits.timeout) :=
      (if_neg hsteps).trans (if_pos htime)
    rw [if_neg hsteps, if_pos htime, halarm]
    rfl
  · have halarm : c.engine.alarm? (m.steps + 1) = none := (if_neg hsteps).trans (if_neg htime)
    rw [if_neg hsteps, if_neg htime, halarm]
    rfl

theorem enter?_eq (c : Context) (m : Meter) :
    enter? c m = match c.engine.alarm? (m.steps + 1) with
      | some _ => none
      | none => if maxHeight ≤ m.depth then none else some ⟨m.steps + 1, m.depth + 1⟩ := by
  unfold enter?
  rw [tick_alarm]
  cases c.engine.alarm? (m.steps + 1) <;> rfl

theorem eq_of_enter {m m₁ : Meter} (h : enter? c m = some m₁) : m₁ = ⟨m.steps + 1, m.depth + 1⟩ := by
  rw [enter?_eq] at h
  split at h
  · cases h
  · split at h
    · cases h
    · exact (Option.some.inj h).symm

/-- Whether an evaluation with room for `height` levels takes `n` steps to the outcome
`o`, unless it ends at the first limit that one of them runs into. Either way it ends at
the depth where it began. -/
def Takes (x : Engine → Eval α) (height n : Nat) (o : Outcome α) : Prop :=
  ∀ (e : Engine) (s depth : Nat), depth + height ≤ maxHeight →
    match e.alarmWithin? s n with
    | some l => ∃ s', x e ⟨s, depth⟩ = .error (.error (.limit l)) ⟨s', depth⟩
    | none => x e ⟨s, depth⟩ = Change.ofResult o ⟨s + n, depth⟩

theorem takes_ofResult (o : Outcome α) : Takes (fun _ => Change.ofResult o) height 0 o :=
  fun _ _ _ _ => rfl

theorem Takes.bind_error {failure : Failure EvalError} (h : Takes x height n (.error failure)) :
    Takes (fun e => x e >>= fun a => f a e) height n (.error failure) := by
  intro e s depth hroom
  have hx := h e s depth hroom
  split
  · rename_i l hl
    rw [hl] at hx
    obtain ⟨s', hx⟩ := hx
    exact ⟨s', PoolScaling.bind_error hx⟩
  · rename_i hl
    rw [hl] at hx
    exact PoolScaling.bind_error hx

theorem Takes.bind_ok {a : α} {n' : Nat} {o' : Outcome β} (h : Takes x height n (.ok a))
    (hf : Takes (f a) height n' o') : Takes (fun e => x e >>= fun a => f a e) height (n + n') o' := by
  intro e s depth hroom
  have hx := h e s depth hroom
  rw [e.alarmWithin?_add]
  cases hl : e.alarmWithin? s n with
  | some l =>
    rw [hl] at hx
    obtain ⟨s', hx⟩ := hx
    exact ⟨s', PoolScaling.bind_error hx⟩
  | none =>
    rw [hl] at hx
    simp only [Option.none_or, PoolScaling.bind_ok hx, ← Nat.add_assoc]
    exact hf e (s + n) depth hroom

theorem closing_eq_ok {y : Eval α} {m m' : Meter} {a : α} (h : y m = .ok a m') :
    closing y m = .ok a { m' with depth := m'.depth - 1 } := by
  unfold closing
  rw [h]

theorem closing_eq_error {y : Eval α} {m m' : Meter} {failure : Failure EvalError}
    (h : y m = .error failure m') : closing y m = .error failure { m' with depth := m'.depth - 1 } := by
  unfold closing
  rw [h]

/-- A node takes a step and a level. -/
theorem Takes.atNode (h : Takes x height n o) :
    Takes (fun e => atNode (c.under e) (x e)) (height + 1) (1 + n) o := by
  intro e s depth hroom
  rw [e.alarmWithin?_add]
  have htick := tick_alarm (c.under e) ⟨s, depth⟩
  rw [show e.alarmWithin? s 1 = e.alarm? (s + 1) from rfl]
  cases hl : e.alarm? (s + 1) with
  | some l =>
    rw [Context.engine_under, hl] at htick
    exact ⟨s + 1, PoolScaling.bind_error htick⟩
  | none =>
    have henter : enter? (c.under e) ⟨s, depth⟩ = some ⟨s + 1, depth + 1⟩ := by
      rw [enter?_eq, Context.engine_under, hl]
      exact if_neg (by show ¬ maxHeight ≤ depth; omega)
    simp only [Option.none_or, atNode_of_enter henter, ← Nat.add_assoc]
    have hx := h e (s + 1) (depth + 1) (by omega)
    cases hl : e.alarmWithin? (s + 1) n with
    | some l =>
      rw [hl] at hx
      obtain ⟨s', hx⟩ := hx
      exact ⟨s', closing_eq_error hx⟩
    | none =>
      rw [hl] at hx
      cases o with
      | ok a => exact closing_eq_ok hx
      | error failure => exact closing_eq_error hx

/-- Whether an evaluation takes at most `b` steps to a fixed outcome. -/
def Affordable (x : Engine → Eval α) (height b : Nat) : Prop :=
  ∃ n ≤ b, ∃ o, ¬ AtLimit o ∧ Takes x height n o

theorem affordable_ofResult (h : ¬ AtLimit o) : Affordable (fun _ => Change.ofResult o) height b :=
  ⟨0, Nat.zero_le b, o, h, takes_ofResult o⟩

theorem affordable_operation (h : Operational o) : Affordable (fun _ => Change.ofResult o) height b :=
  affordable_ofResult h.not_atLimit

theorem affordable_pure (a : α) : Affordable (fun _ => pure a) height b :=
  affordable_operation (operational_ok a)

theorem affordable_fail {failure : EvalError} (h : ∀ l, failure ≠ .limit l) :
    Affordable (fun _ => (fail failure : Eval α)) height b := by
  refine affordable_ofResult (o := Expr.fail failure) ?_
  rintro ⟨l, hl⟩
  cases hl
  exact h l rfl

theorem Affordable.bind (h : Affordable x height b) (hf : ∀ a, Affordable (f a) height k) :
    Affordable (fun e => x e >>= fun a => f a e) height (b + k) := by
  obtain ⟨n, hn, o, ho, hx⟩ := h
  cases o with
  | error failure =>
    refine ⟨n, by omega, .error failure, ?_, hx.bind_error⟩
    rintro ⟨l, hl⟩
    exact ho ⟨l, by cases hl; rfl⟩
  | ok a =>
    obtain ⟨n', hn', o', ho', hfa⟩ := hf a
    exact ⟨n + n', by omega, o', ho', hx.bind_ok hfa⟩

/-- More room does no harm. -/
theorem Affordable.mono {height' : Nat} (h : Affordable x height b) (hle : height ≤ height') :
    Affordable x height' b := by
  obtain ⟨n, hn, o, ho, hx⟩ := h
  exact ⟨n, hn, o, ho, fun e s depth hroom => hx e s depth (by omega)⟩

theorem Affordable.loosen (h : Affordable x height b) (hle : b ≤ k) : Affordable x height k := by
  obtain ⟨n, hn, o, ho, hx⟩ := h
  exact ⟨n, hn.trans hle, o, ho, hx⟩

theorem Affordable.atNode {height' : Nat} (h : Affordable x height b) (hlt : height < height') :
    Affordable (fun e => Eval.atNode (c.under e) (x e)) height' (1 + b) := by
  obtain ⟨n, hn, o, ho, hx⟩ := h.mono (Nat.le_sub_one_of_lt hlt)
  refine ⟨1 + n, by omega, o, ho, ?_⟩
  rw [← Nat.sub_add_cancel (Nat.one_le_of_lt hlt)]
  exact hx.atNode

/-- One operator of a run. -/
theorem Affordable.combine {x : Engine → Eval Value} (h : Affordable x height b) (left : Value) (op : BinaryOp) :
    Affordable (fun e => combine left op (x e)) height b := by
  cases op with
  | both =>
    simp only [Eval.combine]
    split
    · exact h
    · exact affordable_pure left
  | either =>
    simp only [Eval.combine]
    split
    · exact affordable_pure left
    · exact h
  | equal => exact h.bind (k := 0) fun right => affordable_pure _
  | unequal => exact h.bind (k := 0) fun right => affordable_pure _
  | arithmetic op => exact h.bind (k := 0) fun right => affordable_operation (op.apply_operational left right)

end Eval

/-! ### Trees -/

mutual

/-- **The cost of a tree.** -/
theorem Tree.eval_affordable (c : Context) (t : Tree) :
    Affordable (fun e => t.eval (c.under e)) t.height t.nodes := by
  have hlt : t.height - 1 < t.height := Nat.sub_one_lt_of_lt t.height_pos
  have hlow : ∀ t' ∈ t.children, t'.height ≤ t.height - 1 := fun t' h =>
    Nat.le_sub_one_of_lt (Tree.height_lt_of_mem_children h)
  cases t with
  | number | string | bool | null =>
    simp only [Tree.eval, Tree.nodes]
    exact (affordable_pure (b := 0) _).atNode hlt
  | name s =>
    simp only [Tree.eval, Tree.nodes]
    exact (affordable_operation (b := 0) (c.resolve_operational s)).atNode hlt
  | array items =>
    simp only [Tree.eval, Tree.nodes]
    have hitems := Tree.evalItems_affordable c items hlow
    exact (hitems.bind (k := 0) fun _ => affordable_pure _).atNode hlt
  | record fields =>
    simp only [Tree.eval, Tree.nodes]
    have hfields := Tree.evalFields_affordable c fields hlow
    exact (hfields.bind (k := 0) fun _ => affordable_pure _).atNode hlt
  | unary op operand =>
    simp only [Tree.eval, Tree.nodes]
    have hoperand := (Tree.eval_affordable c operand).mono (hlow operand (List.mem_singleton_self _))
    refine (hoperand.bind (k := 0) fun v => ?_).atNode hlt
    cases op with
    | not => exact affordable_pure _
    | negate => exact affordable_operation v.negate_operational
  | run first rest =>
    simp only [Tree.eval, Tree.nodes, Nat.add_assoc]
    have hfirst := (Tree.eval_affordable c first).mono (hlow first List.mem_cons_self)
    refine (hfirst.bind fun v => ?_).atNode hlt
    exact Tree.evalRun_affordable c v rest fun t h => hlow t (List.mem_cons_of_mem _ h)
  | conditional condition yes no =>
    simp only [Tree.eval, Tree.nodes, Nat.add_assoc]
    have hcondition := (Tree.eval_affordable c condition).mono (hlow condition (by simp [Tree.children]))
    have hyes := (Tree.eval_affordable c yes).mono (hlow yes (by simp [Tree.children]))
    have hno := (Tree.eval_affordable c no).mono (hlow no (by simp [Tree.children]))
    refine (hcondition.bind fun v => ?_).atNode hlt
    split
    · exact hyes.loosen (Nat.le_add_right _ _)
    · exact hno.loosen (Nat.le_add_left _ _)
  | member target field =>
    simp only [Tree.eval, Tree.nodes]
    have htarget := (Tree.eval_affordable c target).mono (hlow target (List.mem_singleton_self _))
    exact (htarget.bind (k := 0) fun v => affordable_operation (v.member_operational field)).atNode hlt
  | index target i =>
    simp only [Tree.eval, Tree.nodes, Nat.add_assoc]
    have htarget := (Tree.eval_affordable c target).mono (hlow target (by simp [Tree.children]))
    have hi := (Tree.eval_affordable c i).mono (hlow i (by simp [Tree.children]))
    refine (htarget.bind fun v => ?_).atNode hlt
    exact hi.bind (k := 0) fun w => affordable_operation (v.index_operational w)
  | call callee arguments =>
    simp only [Tree.eval, Tree.nodes, Nat.add_assoc]
    have hcallee := (Tree.eval_affordable c callee).mono (hlow callee List.mem_cons_self)
    have harguments := Tree.evalItems_affordable c arguments fun t h => hlow t (List.mem_cons_of_mem _ h)
    refine (hcallee.bind fun v => ?_).atNode hlt
    cases v with
    | builtin b => exact harguments.bind (k := 0) fun values => affordable_operation (b.call_operational values)
    | null | bool | number | string | array | record => exact affordable_fail fun l => nofun

theorem Tree.evalItems_affordable {height : Nat} (c : Context) (ts : List Tree)
    (h : ∀ t ∈ ts, t.height ≤ height) :
    Affordable (fun e => Tree.evalItems (c.under e) ts) height (Tree.nodesOfItems ts) := by
  cases ts with
  | nil =>
    simp only [Tree.evalItems]
    exact affordable_pure _
  | cons t ts =>
    simp only [Tree.evalItems, Tree.nodesOfItems]
    have hrest := Tree.evalItems_affordable c ts fun t ht => h t (List.mem_cons_of_mem _ ht)
    exact ((Tree.eval_affordable c t).mono (h t List.mem_cons_self)).bind fun _ =>
      hrest.bind (k := 0) fun _ => affordable_pure _

theorem Tree.evalFields_affordable {height : Nat} (c : Context) (fields : List (String × Tree))
    (h : ∀ t ∈ fields.map Prod.snd, t.height ≤ height) :
    Affordable (fun e => Tree.evalFields (c.under e) fields) height (Tree.nodesOfFields fields) := by
  match fields with
  | [] =>
    simp only [Tree.evalFields]
    exact affordable_pure _
  | (key, t) :: fields =>
    simp only [Tree.evalFields, Tree.nodesOfFields]
    have hrest := Tree.evalFields_affordable c fields fun t ht => h t (List.mem_cons_of_mem _ ht)
    exact ((Tree.eval_affordable c t).mono (h t List.mem_cons_self)).bind fun _ =>
      hrest.bind (k := 0) fun _ => affordable_pure _

theorem Tree.evalRun_affordable {height : Nat} (c : Context) (left : Value) (rest : List (BinaryOp × Tree))
    (h : ∀ t ∈ rest.map Prod.snd, t.height ≤ height) :
    Affordable (fun e => Tree.evalRun (c.under e) left rest) height (Tree.nodesOfRun rest) := by
  match rest with
  | [] =>
    simp only [Tree.evalRun]
    exact affordable_pure _
  | (op, t) :: rest =>
    simp only [evalRun_cons, Tree.nodesOfRun]
    have hoperand := (Tree.eval_affordable c t).mono (h t List.mem_cons_self)
    exact (hoperand.combine left op).bind fun v =>
      Tree.evalRun_affordable c v rest fun t ht => h t (List.mem_cons_of_mem _ ht)

end

end PoolScaling.Expr
