import Mathlib.Algebra.Order.BigOperators.Group.List
import Mathlib.Algebra.Order.Ring.Nat
import PoolScaling.Proofs.Dictionary
import PoolScaling.Proofs.Expr.Limits

/-! How large values get.

The size of a value is its number of scalars. An operation returns no more of them than
its operands have, or a single one, so a tree that takes `n` steps has a value of at most
`n` times the size of the largest that a name stands for (`Tree.eval_answers`). A
definition turns such a value into one that a name stands for, so statements multiply
their steps (`runStatements_answers`), and a run may make as many scalars as it takes
steps to the power of its definitions (`Program.run_leaves`). That is no exaggeration:
three steps suffice to double a value (`Program.run_doubling`). -/
namespace PoolScaling.Expr
open Eval

namespace Value

/-! ### Scalars -/

mutual

/-- The number of scalars in a value. -/
def leaves : Value → Nat
  | null | bool _ | number _ | string _ | builtin _ => 1
  | array items => leavesOfItems items
  | record fields => leavesOfFields fields

def leavesOfItems : List Value → Nat
  | [] => 0
  | v :: vs => leaves v + leavesOfItems vs

def leavesOfFields : List (String × Value) → Nat
  | [] => 0
  | (_, v) :: fields => leaves v + leavesOfFields fields

end

variable {v : Value} {vs : List Value} {fields : List (String × Value)} {key : String}

theorem leaves_le_of_mem_items (h : v ∈ vs) : v.leaves ≤ leavesOfItems vs := by
  induction h with
  | head vs => exact Nat.le_add_right _ _
  | tail w _ ih => exact Nat.le_trans ih (Nat.le_add_left _ _)

theorem leaves_le_of_mem_fields (h : (key, v) ∈ fields) : v.leaves ≤ leavesOfFields fields := by
  induction h with
  | head fields => exact Nat.le_add_right _ _
  | tail field _ ih => exact Nat.le_trans ih (Nat.le_add_left _ _)

theorem leaves_le_of_find? (h : Dictionary.find? key fields = some v) : v.leaves ≤ leavesOfFields fields :=
  leaves_le_of_mem_fields (Dictionary.mem_of_find? h)

theorem leavesOfFields_insert (key : String) (v : Value) (fields : Dictionary Value) :
    leavesOfFields (Dictionary.insert key v fields) ≤ leavesOfFields fields + v.leaves := by
  induction fields with
  | nil => simp [Dictionary.insert, leavesOfFields]
  | cons field fields ih =>
    obtain ⟨key', w⟩ := field
    rw [Dictionary.insert]
    split
    · simp only [leavesOfFields]
      omega
    · split
      · simp only [leavesOfFields]
        omega
      · simp only [leavesOfFields]
        omega

theorem leavesOfFields_insertAll (fields : Dictionary Value) (pairs : List (String × Value)) :
    leavesOfFields (Dictionary.insertAll fields pairs) ≤ leavesOfFields fields + leavesOfFields pairs := by
  induction pairs generalizing fields with
  | nil => exact Nat.le_refl _
  | cons pair pairs ih =>
    obtain ⟨key, v⟩ := pair
    have hfirst := leavesOfFields_insert key v fields
    have hrest := ih (Dictionary.insert key v fields)
    rw [leavesOfFields]
    show leavesOfFields (Dictionary.insertAll (Dictionary.insert key v fields) pairs) ≤ _
    omega

/-- Fields that are replaced only take scalars away. -/
theorem leaves_ofFields (fields : List (String × Value)) : (ofFields fields).leaves ≤ leavesOfFields fields :=
  (leavesOfFields_insertAll [] fields).trans (Nat.le_of_eq (Nat.zero_add _))

theorem leaves_math : math.leaves = 13 := by decide +kernel

end Value

/-! ### Operations -/

/-- Whether the value that an outcome has, if any, has at most `k` scalars. -/
def AtMost (k : Nat) (o : Outcome Value) : Prop := ∀ v, o = .ok v → v.leaves ≤ k

section AtMost

variable {α : Type} {k : Nat}

@[simp] theorem atMost_ok {v : Value} : AtMost k (.ok v) ↔ v.leaves ≤ k := by
  constructor
  · intro h
    exact h v rfl
  · intro h w hw
    cases hw
    exact h

@[simp] theorem atMost_error {failure : Failure EvalError} : AtMost k (.error failure) := nofun

@[simp] theorem atMost_fail {e : EvalError} : AtMost k (fail e) := nofun

theorem AtMost.bind {o : Outcome α} {f : α → Outcome Value} (h : ∀ a, o = .ok a → AtMost k (f a)) :
    AtMost k (o >>= f) := by
  cases o with
  | ok a => exact h a rfl
  | error failure => exact atMost_error

end AtMost

/-- What an operator returns is a scalar. -/
theorem Arithmetic.apply_atMost (op : Arithmetic) (left right : Value) : AtMost 1 (op.apply left right) := by
  unfold apply
  dsimp only
  split
  · cases op <;> simp [onNumbers, Value.leaves]
  all_goals repeat' split
  all_goals simp [Value.leaves]

namespace Value

theorem negate_atMost (v : Value) : AtMost 1 v.negate := by
  cases v <;> simp [negate, leaves]

theorem member_atMost (v : Value) (field : String) : AtMost (v.leaves + 1) (v.member field) := by
  unfold member
  split
  · split
    · rename_i hfind
      exact atMost_ok.mpr (Nat.le_succ_of_le (leaves_le_of_find? hfind))
    · exact atMost_fail
  · split
    · exact atMost_ok.mpr (Nat.le_add_left _ _)
    · exact atMost_fail
  · exact atMost_fail

theorem index_atMost (v i : Value) : AtMost (v.leaves + 1) (v.index i) := by
  unfold index
  split
  · split
    · exact atMost_fail
    · split
      · rename_i hitem
        exact atMost_ok.mpr (Nat.le_succ_of_le (leaves_le_of_mem_items (List.mem_of_getElem? hitem)))
      · exact atMost_fail
  · exact member_atMost _ _
  · exact atMost_fail

end Value

namespace Builtin

/-- Fields that are plucked are parts of the items. -/
theorem leaves_pluckFrom {field : String} {items values : List Value} (h : pluckFrom field items = .ok values) :
    Value.leavesOfItems values ≤ Value.leavesOfItems items := by
  induction items generalizing values with
  | nil =>
    cases h
    exact Nat.le_refl _
  | cons item items ih =>
    unfold pluckFrom at h ih
    rw [List.mapM_cons] at h
    cases item with
    | record fields =>
      dsimp only at h
      cases hfind : Dictionary.find? field fields with
      | none =>
        rw [hfind] at h
        cases h
      | some v =>
        rw [hfind] at h
        cases hrest : pluckFrom field items with
        | error failure =>
          rw [pluckFrom] at hrest
          rw [hrest] at h
          cases h
        | ok rest =>
          rw [pluckFrom] at hrest
          rw [hrest] at h
          cases h
          have hv := Value.leaves_le_of_find? hfind
          have hle := ih hrest
          simp only [Value.leavesOfItems, Value.leaves]
          omega
    | null | bool | number | string | array | builtin => cases h

/-- A builtin returns a number, or parts of its arguments. -/
theorem call_atMost (b : Builtin) (arguments : List Value) :
    AtMost (Value.leavesOfItems arguments + 1) (b.call arguments) := by
  have hnumber : ∀ n, AtMost (Value.leavesOfItems arguments + 1) (.ok (.number n)) := fun n =>
    atMost_ok.mpr (Nat.le_add_left _ _)
  cases b with
  | max | min | avg | sum => exact AtMost.bind fun _ _ => hnumber _
  | abs | ceil | floor | round | sqrt =>
    unfold call onNumber
    dsimp only
    split
    · exact AtMost.bind fun _ _ => hnumber _
    · exact atMost_fail
  | count =>
    unfold call
    dsimp only
    split
    · exact hnumber _
    · exact atMost_fail
    · exact atMost_fail
  | pow =>
    unfold call
    dsimp only
    split
    · exact AtMost.bind fun _ _ => AtMost.bind fun _ _ => hnumber _
    · exact atMost_fail
  | clamp =>
    unfold call
    dsimp only
    split
    · refine AtMost.bind fun _ _ => AtMost.bind fun _ _ => AtMost.bind fun _ _ => ?_
      split
      · exact atMost_fail
      · split
        · exact hnumber _
        · exact atMost_error
    · exact atMost_fail
  | pluck =>
    unfold call
    dsimp only
    split
    · rename_i items field
      refine AtMost.bind fun values hvalues => atMost_ok.mpr ?_
      have hle := leaves_pluckFrom hvalues
      simp only [Value.leavesOfItems, Value.leaves]
      omega
    · exact atMost_fail
    · exact atMost_fail

end Builtin

/-! ### Names -/

/-- Whether every name stands for a value of at most `unit` scalars. -/
structure Context.Within (c : Context) (unit : Nat) : Prop where
  locals : ∀ name v, Dictionary.find? name c.locals = some v → v.leaves ≤ unit
  bindings : ∀ name v, Dictionary.find? name c.bindings = some v → v.leaves ≤ unit
  math : Value.math.leaves ≤ unit

variable {c : Context} {unit : Nat}

theorem Context.Within.pos (h : c.Within unit) : 1 ≤ unit :=
  le_trans (by decide) (Value.leaves_math ▸ h.math)

theorem Context.Within.resolve (h : c.Within unit) (name : String) : AtMost unit (c.resolve name) := by
  unfold Context.resolve
  split
  · rename_i hfind
    exact atMost_ok.mpr (h.locals _ _ hfind)
  · split
    · rename_i hfind
      exact atMost_ok.mpr (h.bindings _ _ hfind)
    · split
      · exact atMost_ok.mpr h.math
      · split
        · exact atMost_ok.mpr h.pos
        · exact atMost_fail

/-- A name that is given to a larger value raises the bound. -/
theorem Context.Within.define {k : Nat} {v : Value} (h : c.Within unit) (hle : unit ≤ k) (hv : v.leaves ≤ k)
    (name : String) : ({ c with locals := Dictionary.insert name v c.locals } : Context).Within k where
  locals := by
    intro name' w hw
    dsimp only at hw
    rw [Dictionary.find?_insert] at hw
    split at hw
    · cases hw
      exact hv
    · exact (h.locals _ _ hw).trans hle
  bindings := fun name' w hw => (h.bindings name' w hw).trans hle
  math := h.math.trans hle

/-! ### Steps and sizes -/

namespace Eval

variable {α β : Type} {x : Eval α} {f : α → Eval β} {P : Nat → α → Prop} {Q : Nat → β → Prop}

/-- Whether an evaluation that answers has taken a number of steps that the limits allow,
with an answer for which this number is right. -/
def Answers (c : Context) (x : Eval α) (P : Nat → α → Prop) : Prop :=
  ∀ m a m', x m = .ok a m' → ∃ n, m'.steps = m.steps + n ∧
    (m.steps ≤ c.limits.maxSteps → m'.steps ≤ c.limits.maxSteps) ∧ P n a

theorem answers_pure {a : α} (h : P 0 a) : Answers c (pure a) P := by
  intro m a' m' hx
  cases hx
  exact ⟨0, rfl, id, h⟩

theorem answers_ofResult {o : Outcome α} (h : ∀ a, o = .ok a → P 0 a) : Answers c (Change.ofResult o) P := by
  intro m a m' hx
  cases o with
  | ok a' =>
    cases hx
    exact ⟨0, rfl, id, h a rfl⟩
  | error failure => cases hx

theorem Answers.mono {P' : Nat → α → Prop} (h : Answers c x P) (hP : ∀ n a, P n a → P' n a) :
    Answers c x P' := by
  intro m a m' hx
  obtain ⟨n, hsteps, hmost, ha⟩ := h m a m' hx
  exact ⟨n, hsteps, hmost, hP n a ha⟩

/-- Steps that follow each other are counted together. -/
theorem Answers.bind (h : Answers c x P) (hf : ∀ n a, P n a → Answers c (f a) fun n' b => Q (n + n') b) :
    Answers c (x >>= f) Q := by
  intro m b m'' hb
  obtain ⟨a, m', hx, hfa⟩ := bind_eq_ok.mp hb
  obtain ⟨n, hsteps, hmost, ha⟩ := h m a m' hx
  obtain ⟨n', hsteps', hmost', hb⟩ := hf n a ha m' b m'' hfa
  exact ⟨n + n', by omega, fun hm => hmost' (hmost hm), hb⟩

theorem steps_le_of_enter {m m₁ : Meter} (h : enter? c m = some m₁) : m₁.steps ≤ c.limits.maxSteps := by
  have heq := eq_of_enter h
  rw [enter?_eq] at h
  cases halarm : c.engine.alarm? (m.steps + 1) with
  | some l =>
    rw [halarm] at h
    cases h
  | none =>
    subst heq
    by_contra hgt
    have hmost : c.engine.limits.maxSteps < m.steps + 1 := Nat.lt_of_not_le hgt
    rw [Engine.alarm?, if_pos hmost] at halarm
    cases halarm

/-- A node takes a step of its own. -/
theorem Answers.atNode (h : Answers c x fun n a => P (1 + n) a) :
    Answers c (atNode c x) fun n a => 0 < n ∧ P n a := by
  intro m a m' hnode
  cases henter : enter? c m with
  | none =>
    obtain ⟨l, m'', herror⟩ := atNode_of_not_enter (x := x) henter
    rw [herror] at hnode
    cases hnode
  | some m₁ =>
    rw [atNode_of_enter henter] at hnode
    cases hx : x m₁ with
    | error failure m₂ =>
      rw [closing_eq_error hx] at hnode
      cases hnode
    | ok a' m₂ =>
      rw [closing_eq_ok hx] at hnode
      cases hnode
      obtain ⟨n, hsteps, hmost, ha⟩ := h m₁ a m₂ hx
      have hfirst : m₁.steps = m.steps + 1 := congrArg Meter.steps (eq_of_enter henter)
      exact ⟨1 + n, by dsimp only; omega, fun _ => hmost (steps_le_of_enter henter), by omega, ha⟩

end Eval

/-! ### Trees -/

/-- One operator of a run returns its operand, its left side or a scalar. -/
theorem combine_answers {k : Nat} {x : Eval Value} {left : Value} (h : Answers c x fun n v => v.leaves ≤ n * unit)
    (hleft : left.leaves ≤ k) (hpos : 1 ≤ k) (op : BinaryOp) :
    Answers c (combine left op x) fun n v => v.leaves ≤ n * unit + k := by
  have hright : Answers c x fun n v => v.leaves ≤ n * unit + k :=
    h.mono fun n v hv => hv.trans (Nat.le_add_right _ _)
  have hdecided : Answers c (pure left) fun n v => v.leaves ≤ n * unit + k :=
    answers_pure (hleft.trans (Nat.le_add_left _ _))
  have hbool : ∀ n b, Answers c (pure (Value.bool b)) fun n' v => v.leaves ≤ (n + n') * unit + k :=
    fun n b => answers_pure (hpos.trans (Nat.le_add_left _ _))
  cases op with
  | both =>
    rw [combine]
    split
    · exact hright
    · exact hdecided
  | either =>
    rw [combine]
    split
    · exact hdecided
    · exact hright
  | equal | unequal => exact h.bind fun n v _ => hbool n _
  | arithmetic op =>
    refine h.bind fun n v _ => answers_ofResult fun w hw => ?_
    exact (op.apply_atMost left v w hw).trans (hpos.trans (Nat.le_add_left _ _))

mutual

/-- **The size of a tree's value.** It has at most `unit` scalars for each step. -/
theorem Tree.eval_answers (hc : c.Within unit) (t : Tree) :
    Answers c (t.eval c) fun n v => 0 < n ∧ v.leaves ≤ n * unit := by
  have hpos := hc.pos
  rw [Tree.eval.eq_def]
  refine Answers.atNode (P := fun n (v : Value) => v.leaves ≤ n * unit) ?_
  -- The step of the node itself pays for a name, or for a scalar that an operation adds.
  simp only [Nat.add_mul, Nat.one_mul]
  cases t with
  | number | string | bool | null =>
    refine answers_pure ?_
    simp only [Value.leaves]
    omega
  | name s =>
    refine answers_ofResult fun v hv => ?_
    have hle := hc.resolve s v hv
    omega
  | array items =>
    refine (Tree.evalItems_answers hc items).bind fun n values hvalues => answers_pure ?_
    simp only [Value.leaves, Nat.add_zero]
    omega
  | record fields =>
    refine (Tree.evalFields_answers hc fields).bind fun n values hvalues => answers_pure ?_
    have hle := Value.leaves_ofFields values
    simp only [Nat.add_zero]
    omega
  | unary op operand =>
    refine (Tree.eval_answers hc operand).bind fun n v ⟨_, hv⟩ => ?_
    cases op with
    | not =>
      refine answers_pure ?_
      simp only [Value.leaves]
      omega
    | negate =>
      refine answers_ofResult fun w hw => ?_
      have hle := v.negate_atMost w hw
      omega
  | run first rest =>
    refine (Tree.eval_answers hc first).bind fun n v ⟨hn, hv⟩ => ?_
    have hrest := Tree.evalRun_answers hc hv (Nat.mul_pos hn hpos) rest
    refine hrest.mono fun n' w hw => ?_
    rw [Nat.add_mul]
    omega
  | conditional condition yes no =>
    refine (Tree.eval_answers hc condition).bind fun n v _ => ?_
    split
    · refine (Tree.eval_answers hc yes).mono fun n' w ⟨_, hw⟩ => ?_
      rw [Nat.add_mul]
      omega
    · refine (Tree.eval_answers hc no).mono fun n' w ⟨_, hw⟩ => ?_
      rw [Nat.add_mul]
      omega
  | member target field =>
    refine (Tree.eval_answers hc target).bind fun n v ⟨_, hv⟩ => answers_ofResult fun w hw => ?_
    have hle := v.member_atMost field w hw
    simp only [Nat.add_zero]
    omega
  | index target i =>
    refine (Tree.eval_answers hc target).bind fun n v ⟨_, hv⟩ => ?_
    refine (Tree.eval_answers hc i).bind fun n' u _ => answers_ofResult fun w hw => ?_
    have hle := v.index_atMost u w hw
    simp only [Nat.add_mul, Nat.add_zero]
    omega
  | call callee arguments =>
    refine (Tree.eval_answers hc callee).bind fun n v _ => ?_
    cases v with
    | builtin b =>
      refine (Tree.evalItems_answers hc arguments).bind fun n' values hvalues =>
        answers_ofResult fun w hw => ?_
      have hle := b.call_atMost values w hw
      simp only [Nat.add_mul, Nat.add_zero]
      omega
    | null | bool | number | string | array | record => exact fun _ _ _ h => nomatch h

theorem Tree.evalItems_answers (hc : c.Within unit) (ts : List Tree) :
    Answers c (Tree.evalItems c ts) fun n vs => Value.leavesOfItems vs ≤ n * unit := by
  cases ts with
  | nil =>
    rw [Tree.evalItems]
    exact answers_pure (Nat.zero_le _)
  | cons t ts =>
    rw [Tree.evalItems]
    refine (Tree.eval_answers hc t).bind fun n v ⟨_, hv⟩ => ?_
    refine (Tree.evalItems_answers hc ts).bind fun n' vs hvs => answers_pure ?_
    simp only [Value.leavesOfItems, Nat.add_mul, Nat.add_zero]
    omega

theorem Tree.evalFields_answers (hc : c.Within unit) (fields : List (String × Tree)) :
    Answers c (Tree.evalFields c fields) fun n vs => Value.leavesOfFields vs ≤ n * unit := by
  match fields with
  | [] =>
    rw [Tree.evalFields]
    exact answers_pure (Nat.zero_le _)
  | (key, t) :: fields =>
    rw [Tree.evalFields]
    refine (Tree.eval_answers hc t).bind fun n v ⟨_, hv⟩ => ?_
    refine (Tree.evalFields_answers hc fields).bind fun n' vs hvs => answers_pure ?_
    simp only [Value.leavesOfFields, Nat.add_mul, Nat.add_zero]
    omega

theorem Tree.evalRun_answers (hc : c.Within unit) {k : Nat} {left : Value} (hleft : left.leaves ≤ k)
    (hpos : 1 ≤ k) (rest : List (BinaryOp × Tree)) :
    Answers c (Tree.evalRun c left rest) fun n v => v.leaves ≤ n * unit + k := by
  match rest with
  | [] =>
    rw [Tree.evalRun]
    exact answers_pure (hleft.trans (Nat.le_add_left _ _))
  | (op, t) :: rest =>
    rw [evalRun_cons]
    have hoperand := (Tree.eval_answers hc t).mono fun n v hv => hv.2
    refine (combine_answers hoperand hleft hpos op).bind fun n v hv => ?_
    have hrest := Tree.evalRun_answers hc hv (Nat.le_add_left_of_le hpos) rest
    refine hrest.mono fun n' w hw => ?_
    rw [Nat.add_mul]
    omega

end

/-! ### Statements -/

/-- The number of statements that give a name to a value. -/
def definitions (ss : List Statement) : Nat := ss.countP Statement.isDefinition

/-- **The size of a run's value.** Its steps fall into parts, one for each definition and
one for the answer, whose product bounds it. The value so far, `last`, took `spent` steps
and counts as a part. -/
theorem runStatements_answers {last : Option Value} {spent : Nat} {ss : List Statement} (hc : c.Within unit)
    (hlast : ∀ v, last = some v → 0 < spent ∧ v.leaves ≤ spent * unit) :
    Answers c (runStatements c last ss) fun n v => ∃ parts : List Nat,
      parts.length ≤ definitions ss + 1 ∧ 0 < parts.sum ∧ parts.sum ≤ spent + n ∧
        v.leaves ≤ parts.prod * unit := by
  induction ss generalizing c last spent unit with
  | nil =>
    cases last with
    | some v =>
      obtain ⟨hspent, hv⟩ := hlast v rfl
      refine answers_pure ⟨[spent], ?_, ?_, ?_, ?_⟩ <;> simp [hspent, hv]
    | none => exact fun _ _ _ h => nomatch h
  | cons s ss ih =>
    cases s with
    | define name t =>
      refine (t.eval_answers hc).bind fun n v ⟨hn, hv⟩ => ?_
      -- From here on the name may stand for the new value.
      have hunit : unit ≤ n * unit := Nat.le_mul_of_pos_left unit hn
      have hlast' : ∀ w, last = some w → 0 < spent ∧ w.leaves ≤ spent * (n * unit) := fun w hw => by
        obtain ⟨hspent, hw⟩ := hlast w hw
        exact ⟨hspent, hw.trans (Nat.mul_le_mul_left spent hunit)⟩
      have hrest := ih (hc.define hunit hv name) hlast'
      refine hrest.mono fun n' w ⟨parts, hlength, _, hsum, hw⟩ => ⟨n :: parts, ?_, ?_, ?_, ?_⟩
      · simp only [definitions, List.countP_cons, Statement.isDefinition, List.length_cons] at hlength ⊢
        simpa using hlength
      · rw [List.sum_cons]
        omega
      · rw [List.sum_cons]
        omega
      · rw [List.prod_cons, Nat.mul_comm n, Nat.mul_assoc]
        exact hw
    | yield t =>
      refine (t.eval_answers hc).bind fun n v ⟨hn, hv⟩ => ?_
      have hlast' : ∀ w, some v = some w → 0 < spent + n ∧ w.leaves ≤ (spent + n) * unit := fun w hw => by
        cases hw
        exact ⟨by omega, hv.trans (Nat.mul_le_mul_right unit (Nat.le_add_left n spent))⟩
      have hrest := ih hc hlast'
      refine hrest.mono fun n' w ⟨parts, hlength, hpos, hsum, hw⟩ => ⟨parts, ?_, hpos, by omega, hw⟩
      simpa [definitions, List.countP_cons, Statement.isDefinition] using hlength
    | answer t =>
      refine (t.eval_answers hc).mono fun n v ⟨hn, hv⟩ => ⟨[n], ?_, ?_, ?_, ?_⟩ <;> simp [hn, hv]

/-! ### Programs -/

theorem prod_le_two_pow_sum (parts : List Nat) : parts.prod ≤ 2 ^ parts.sum := by
  induction parts with
  | nil => exact Nat.le_refl 1
  | cons n parts ih =>
    rw [List.prod_cons, List.sum_cons, Nat.pow_add]
    exact Nat.mul_le_mul Nat.lt_two_pow_self.le ih

theorem Context.within_bindings (bindings : Dictionary Value) (limits : Limits) (stopwatch : Stopwatch) :
    (⟨[], bindings, limits, stopwatch⟩ : Context).Within (13 + Value.leavesOfFields bindings) where
  locals := nofun
  bindings := fun _ _ h => (Value.leaves_le_of_find? h).trans (Nat.le_add_left _ _)
  math := Value.leaves_math.trans_le (Nat.le_add_right _ _)

variable {p : Program} {bindings : Dictionary Value} {limits : Limits} {stopwatch : Stopwatch} {v : Value}

/-- **The size of a program's value.** The steps that are allowed, to the power of the
definitions and one more, bound it, in units of what the bindings and builtins bring. -/
theorem Program.run_leaves (h : p.run bindings limits stopwatch = .ok v) :
    v.leaves ≤ limits.maxSteps ^ (definitions p.statements + 1) * (13 + Value.leavesOfFields bindings) ∧
      v.leaves ≤ 2 ^ limits.maxSteps * (13 + Value.leavesOfFields bindings) := by
  have hc := Context.within_bindings bindings limits stopwatch
  unfold run at h
  split at h
  · cases h
  · split at h
    · rename_i hrun
      cases h
      have hlast : ∀ w : Value, none = some w →
          0 < 0 ∧ w.leaves ≤ 0 * (13 + Value.leavesOfFields bindings) := nofun
      obtain ⟨n, hsteps, hmost, parts, hlength, hpos, hsum, hv⟩ := runStatements_answers hc hlast _ _ _ hrun
      have hmost := hmost (Nat.zero_le _)
      have htotal : parts.sum ≤ limits.maxSteps := by
        dsimp only at hsteps hmost
        omega
      have hpower : parts.prod ≤ limits.maxSteps ^ (definitions p.statements + 1) := by
        have hparts : ∀ part ∈ parts, part ≤ limits.maxSteps := fun part hpart =>
          (List.single_le_sum (fun _ _ => Nat.zero_le _) part hpart).trans htotal
        exact (List.prod_le_pow_card parts _ hparts).trans (Nat.pow_le_pow_right (by omega) hlength)
      have htwo : parts.prod ≤ 2 ^ limits.maxSteps :=
        (prod_le_two_pow_sum parts).trans (Nat.pow_le_pow_right (by omega) htotal)
      exact ⟨hv.trans (Nat.mul_le_mul_right _ hpower), hv.trans (Nat.mul_le_mul_right _ htwo)⟩
    · cases h

/-- Three definitions of a pair, within sixteen steps. -/
theorem Program.run_leaves_pairs :
    ∃ p v, compile "let a = [1, 1]; let b = [a, a]; let c = [b, b]; c" = .ok p ∧
      p.run [] ⟨16, .ofMillis 250⟩ .still = .ok v ∧ v.leaves = 8 ∧
        v.leaves ≤ 16 ^ 4 * 13 ∧ v.leaves ≤ 2 ^ 16 * 13 := by
  have hleaves : ((compile "let a = [1, 1]; let b = [a, a]; let c = [b, b]; c").toOption.bind fun p =>
      (p.run [] ⟨16, .ofMillis 250⟩ .still).toOption.map fun v => (definitions p.statements, v.leaves)) =
    some (3, 8) := by decide +kernel
  obtain ⟨p, hp, hleaves⟩ := Option.bind_eq_some_iff.mp hleaves
  obtain ⟨v, hv, hpair⟩ := Option.map_eq_some_iff.mp hleaves
  have hrun := Change.eq_ok_of_toOption hv
  obtain ⟨hpower, htwo⟩ := run_leaves hrun
  obtain ⟨hdefinitions, hleaves⟩ := Prod.mk.inj hpair
  rw [hdefinitions] at hpower
  exact ⟨p, v, Change.eq_ok_of_toOption hp, hrun, hleaves, hpower, htwo⟩

/-- The steps alone, without the power, are no bound: seven copies of seven copies of
seven numbers take no more than twenty-four. -/
theorem Program.run_leaves_copies :
    ∃ p v, compile "let a = [1, 1, 1, 1, 1, 1, 1]; let b = [a, a, a, a, a, a, a]; [b, b, b, b, b, b, b]" = .ok p ∧
      p.run [] ⟨24, .ofMillis 250⟩ .still = .ok v ∧ ¬ v.leaves ≤ 24 * (13 + Value.leavesOfFields []) := by
  have hleaves : ((compile
        "let a = [1, 1, 1, 1, 1, 1, 1]; let b = [a, a, a, a, a, a, a]; [b, b, b, b, b, b, b]").toOption.bind fun p =>
      (p.run [] ⟨24, .ofMillis 250⟩ .still).toOption.map Value.leaves) = some 343 := by decide +kernel
  obtain ⟨p, hp, hleaves⟩ := Option.bind_eq_some_iff.mp hleaves
  obtain ⟨v, hv, hleaves⟩ := Option.map_eq_some_iff.mp hleaves
  refine ⟨p, v, Change.eq_ok_of_toOption hp, Change.eq_ok_of_toOption hv, ?_⟩
  rw [hleaves]
  decide

/-! ### Doubling -/

/-- A value that has been paired with itself `k` times. -/
def Value.doubled : Nat → Value
  | 0 => .null
  | k + 1 => .array [doubled k, doubled k]

theorem Value.leaves_doubled (k : Nat) : (doubled k).leaves = 2 ^ k := by
  induction k with
  | zero => rfl
  | succ k ih =>
    rw [doubled, leaves, leavesOfItems, leavesOfItems, leavesOfItems, ih, Nat.pow_succ]
    omega

/-- Pairs `a` with itself `k` times and returns it. -/
def doublings (k : Nat) : List Statement :=
  List.replicate k (.define "a" (.array [.name "a", .name "a"])) ++ [.answer (.name "a")]

namespace Eval

variable {α : Type} {x : Eval α}

/-- A node before the last step and the last level, and with time left. -/
theorem atNode_ok {steps depth steps' : Nat} {a : α} (hsteps : steps < c.limits.maxSteps)
    (htime : (c.stopwatch (steps + 1)).nanos < c.limits.timeout.nanos) (hdepth : depth < maxHeight)
    (hx : x ⟨steps + 1, depth + 1⟩ = .ok a ⟨steps', depth + 1⟩) :
    atNode c x ⟨steps, depth⟩ = .ok a ⟨steps', depth⟩ := by
  have halarm : c.engine.alarm? (steps + 1) = none :=
    (Engine.alarm?_of_time htime).trans (if_neg (Nat.not_lt.mpr hsteps))
  have henter : enter? c ⟨steps, depth⟩ = some ⟨steps + 1, depth + 1⟩ := by
    rw [enter?_eq, halarm]
    exact if_neg (Nat.not_le.mpr hdepth)
  rw [atNode_of_enter henter, closing_eq_ok hx]
  rfl

end Eval

section Doubling

variable {steps k k' : Nat} {v : Value} (htime : ∀ step, (c.stopwatch step).nanos < c.limits.timeout.nanos)

include htime

/-- A name takes a step. -/
theorem eval_name {depth : Nat} {name : String} (hsteps : steps < c.limits.maxSteps)
    (hdepth : depth < maxHeight) (hname : c.resolve name = .ok v) :
    (Tree.name name).eval c ⟨steps, depth⟩ = .ok v ⟨steps + 1, depth⟩ := by
  rw [Tree.eval]
  refine atNode_ok hsteps (htime _) hdepth ?_
  rw [hname]
  rfl

/-- A pair of names takes three steps. -/
theorem eval_pair {name : String} (hsteps : steps + 3 ≤ c.limits.maxSteps) (hname : c.resolve name = .ok v) :
    (Tree.array [.name name, .name name]).eval c ⟨steps, 0⟩ = .ok (.array [v, v]) ⟨steps + 3, 0⟩ := by
  have hfirst : (Tree.name name).eval c ⟨steps + 1, 1⟩ = .ok v ⟨steps + 2, 1⟩ :=
    eval_name htime (by omega) (by decide) hname
  have hsecond : (Tree.name name).eval c ⟨steps + 2, 1⟩ = .ok v ⟨steps + 3, 1⟩ :=
    eval_name htime (by omega) (by decide) hname
  rw [Tree.eval]
  refine atNode_ok (by omega) (htime _) (by decide) ?_
  rw [Tree.evalItems, Tree.evalItems, Tree.evalItems]
  refine bind_eq_ok.mpr ⟨[v, v], _, bind_eq_ok.mpr ⟨v, _, hfirst, ?_⟩, rfl⟩
  exact bind_eq_ok.mpr ⟨[v], _, bind_eq_ok.mpr ⟨v, _, hsecond, rfl⟩, rfl⟩

/-- Each pair doubles what `a` stands for. -/
theorem runStatements_doublings (hsteps : steps + 3 * k + 1 ≤ c.limits.maxSteps)
    (ha : Dictionary.find? "a" c.locals = some (.doubled k')) :
    runStatements c none (doublings k) ⟨steps, 0⟩ = .ok (.doubled (k' + k)) ⟨steps + 3 * k + 1, 0⟩ := by
  induction k generalizing c steps k' with
  | zero =>
    have hname : c.resolve "a" = .ok (.doubled k') := by rw [Context.resolve, ha]
    exact eval_name htime hsteps (by decide) hname
  | succ k ih =>
    have hname : c.resolve "a" = .ok (.doubled k') := by rw [Context.resolve, ha]
    rw [doublings, List.replicate_succ, List.cons_append, runStatements,
      bind_ok (eval_pair htime (by omega) hname)]
    have hlocal : Dictionary.find? "a" (Dictionary.insert "a" (.doubled (k' + 1)) c.locals) =
        some (.doubled (k' + 1)) := by
      rw [Dictionary.find?_insert, if_pos rfl]
    have hmost : steps + 3 + 3 * k + 1 ≤ c.limits.maxSteps := by omega
    rw [show k' + (k + 1) = k' + 1 + k by omega, show steps + 3 * (k + 1) + 1 = steps + 3 + 3 * k + 1 by omega]
    exact ih htime hmost hlocal

end Doubling

/-- **Doubling.** With time left, `3 * k + 2` steps are enough for `2 ^ k` scalars. -/
theorem Program.run_doubling (k : Nat) (hrange : limits.timeout.seconds < clockRange)
    (hsteps : 3 * k + 2 ≤ limits.maxSteps) (htime : ∀ step, (stopwatch step).nanos < limits.timeout.nanos) :
    ∃ v, (Program.mk (.define "a" .null :: doublings k)).run bindings limits stopwatch = .ok v ∧
      v.leaves = 2 ^ k := by
  refine ⟨.doubled k, ?_, Value.leaves_doubled k⟩
  let c : Context := ⟨[], bindings, limits, stopwatch⟩
  have hfirst : Tree.null.eval c ⟨0, 0⟩ = .ok .null ⟨1, 0⟩ := by
    have hone : 0 < limits.maxSteps := by omega
    rw [Tree.eval]
    exact atNode_ok hone (htime _) (by decide) rfl
  have hmost : 1 + 3 * k + 1 ≤ limits.maxSteps := by omega
  have hrest : runStatements { c with locals := [("a", .null)] } none (doublings k) ⟨1, 0⟩ =
      .ok (.doubled (0 + k)) ⟨1 + 3 * k + 1, 0⟩ := runStatements_doublings htime hmost rfl
  have hrun : runStatements c none (.define "a" .null :: doublings k) ⟨0, 0⟩ =
      .ok (.doubled k) ⟨1 + 3 * k + 1, 0⟩ := by
    rw [Nat.zero_add] at hrest
    rw [runStatements, bind_ok hfirst]
    exact hrest
  unfold run
  rw [if_neg (Nat.not_le.mpr hrange), hrun]

end PoolScaling.Expr
