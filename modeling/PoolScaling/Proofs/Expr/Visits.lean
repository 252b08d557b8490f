import PoolScaling.Proofs.Expr.Nesting

/-! Evaluated nodes.

Evaluating a node may evaluate some of its children: an item when those before it
have values, an operand when the operator needs it, a branch when the condition
chooses it. `Begins` says which, with the meter from which each of them starts, and
`Visits` is what follows from it in any number of steps: the nodes evaluated in the
course of evaluating another. -/
namespace PoolScaling.Expr

/-- The meter inside a node that is evaluated from `m`, if the limits let it be. -/
def Eval.enter? (c : Context) (m : Meter) : Option Meter :=
  match tick c m with
  | .ok () m' => if maxHeight ≤ m'.depth then none else some { m' with depth := m'.depth + 1 }
  | .error _ _ => none

namespace Eval

variable {α : Type} {c : Context} {m m₁ : Meter} {x : Eval α}

theorem atNode_of_enter (h : enter? c m = some m₁) : atNode c x m = closing x m₁ := by
  unfold enter? at h
  unfold atNode
  split at h
  · rename_i m' hm'
    rw [bind_ok hm', get_bind]
    split at h
    · cases h
    · cases h
      rw [if_neg ‹_›, modify_bind]
  · cases h

/-- A node that the limits do not let be evaluated ends at one of them. -/
theorem atNode_of_not_enter (h : enter? c m = none) :
    ∃ l m', atNode c x m = .error (.error (.limit l)) m' := by
  unfold enter? at h
  unfold atNode
  rcases tick_eq (c := c) m with ⟨l, m', hm'⟩ | ⟨m', hm'⟩
  · exact ⟨l, m', bind_error hm'⟩
  · rw [hm'] at h
    dsimp only at h
    split at h
    · rw [bind_ok hm', get_bind, if_pos ‹_›]
      exact ⟨_, m', rfl⟩
    · cases h

end Eval

/-- Whether an operator needs its right operand. -/
def BinaryOp.needs (op : BinaryOp) (left : Value) : Bool :=
  match op with
  | .both => left.isTruthy
  | .either => !left.isTruthy
  | _ => true

/-! ### Children -/

/-- `BeginsItem c ts m t' m'` says that evaluating the items `ts` from `m` evaluates the
item `t'` from `m'`. -/
inductive BeginsItem (c : Context) : List Tree → Meter → Tree → Meter → Prop
  | head {t ts m} : BeginsItem c (t :: ts) m t m
  | tail {t ts m v m₁ t' m'} (h : t.eval c m = .ok v m₁) (hrest : BeginsItem c ts m₁ t' m') :
      BeginsItem c (t :: ts) m t' m'

/-- `BeginsOperand c left rest m t' m'` says that going on with a run from the value `left`
evaluates the operand `t'` from `m'`. -/
inductive BeginsOperand (c : Context) : Value → List (BinaryOp × Tree) → Meter → Tree → Meter → Prop
  | head {left op t rest m} (hneeds : op.needs left = true) : BeginsOperand c left ((op, t) :: rest) m t m
  | tail {left op t rest m v m₁ t' m'} (h : Eval.combine left op (t.eval c) m = .ok v m₁)
      (hrest : BeginsOperand c v rest m₁ t' m') : BeginsOperand c left ((op, t) :: rest) m t' m'

/-- `Begins c m t t' m'` says that evaluating the node `t`, from `m` on inside it, evaluates
its child `t'` from `m'`. -/
inductive Begins (c : Context) (m : Meter) : Tree → Tree → Meter → Prop
  | item {items t' m'} (h : BeginsItem c items m t' m') : Begins c m (.array items) t' m'
  | field {fields t' m'} (h : BeginsItem c (fields.map Prod.snd) m t' m') :
      Begins c m (.record fields) t' m'
  | operand {op t} : Begins c m (.unary op t) t m
  | first {t rest} : Begins c m (.run t rest) t m
  | later {first rest v m₁ t' m'} (hfirst : first.eval c m = .ok v m₁)
      (h : BeginsOperand c v rest m₁ t' m') : Begins c m (.run first rest) t' m'
  | condition {t yes no} : Begins c m (.conditional t yes no) t m
  | yes {condition t no v m'} (hcondition : condition.eval c m = .ok v m') (hv : v.isTruthy = true) :
      Begins c m (.conditional condition t no) t m'
  | no {condition yes t v m'} (hcondition : condition.eval c m = .ok v m') (hv : v.isTruthy = false) :
      Begins c m (.conditional condition yes t) t m'
  | member {t field} : Begins c m (.member t field) t m
  | target {t i} : Begins c m (.index t i) t m
  | place {target t v m'} (htarget : target.eval c m = .ok v m') : Begins c m (.index target t) t m'
  | callee {t arguments} : Begins c m (.call t arguments) t m
  | argument {callee arguments b m₁ t' m'} (hcallee : callee.eval c m = .ok (.builtin b) m₁)
      (h : BeginsItem c arguments m₁ t' m') : Begins c m (.call callee arguments) t' m'

/-- `Visits c t m t' m'` says that `t'` is evaluated from `m'` in the course of evaluating
`t` from `m`. -/
inductive Visits (c : Context) : Tree → Meter → Tree → Meter → Prop
  | refl (t : Tree) (m : Meter) : Visits c t m t m
  | more {t m m₁ t' m' t'' m''} (hm : Eval.enter? c m = some m₁) (h : Begins c m₁ t t' m')
      (hrest : Visits c t' m' t'' m'') : Visits c t m t'' m''

/-- `BeginsStatement c ss m c' t' m'` says that running the statements `ss` from `m`
evaluates the tree `t'` of one of them from `m'`, with the names of `c'`. -/
inductive BeginsStatement : Context → List Statement → Meter → Context → Tree → Meter → Prop
  | head {c s rest m} : BeginsStatement c (s :: rest) m c s.tree m
  | define {c name t rest m v m₁ c' t' m'} (h : t.eval c m = .ok v m₁)
      (hrest : BeginsStatement { c with locals := Dictionary.insert name v c.locals } rest m₁ c' t' m') :
      BeginsStatement c (.define name t :: rest) m c' t' m'
  | yield {c t rest m v m₁ c' t' m'} (h : t.eval c m = .ok v m₁)
      (hrest : BeginsStatement c rest m₁ c' t' m') : BeginsStatement c (.yield t :: rest) m c' t' m'

/-- Whether a program that is run evaluates the node `t` from `m` with the names of `c`. -/
def Program.Visits (p : Program) (bindings : Dictionary Value) (limits : Limits) (stopwatch : Stopwatch)
    (c : Context) (t : Tree) (m : Meter) : Prop :=
  ∃ t₀ m₀, BeginsStatement ⟨[], bindings, limits, stopwatch⟩ p.statements ⟨0, 0⟩ c t₀ m₀ ∧
    Expr.Visits c t₀ m₀ t m

variable {c : Context} {m m' : Meter} {t t' : Tree}

theorem BeginsItem.mem {ts : List Tree} (h : BeginsItem c ts m t' m') : t' ∈ ts := by
  induction h with
  | head => exact List.mem_cons_self
  | tail _ _ ih => exact List.mem_cons_of_mem _ ih

theorem BeginsOperand.mem {left : Value} {rest : List (BinaryOp × Tree)}
    (h : BeginsOperand c left rest m t' m') : t' ∈ rest.map Prod.snd := by
  induction h with
  | head => exact List.mem_cons_self
  | tail _ _ ih => exact List.mem_cons_of_mem _ ih

theorem Begins.mem_children (h : Begins c m t t' m') : t' ∈ t.children := by
  cases h with
  | item h | field h => exact h.mem
  | later _ h => exact List.mem_cons_of_mem _ h.mem
  | argument _ h => exact List.mem_cons_of_mem _ h.mem
  | operand | first | condition | yes | no | member | target | place | callee => simp [Tree.children]

theorem Tree.nodes_le_of_mem {ts : List Tree} (h : t ∈ ts) : t.nodes ≤ nodesOfItems ts := by
  induction h with
  | head ts => exact Nat.le_add_right _ _
  | tail t' _ ih => exact Nat.le_trans ih (Nat.le_add_left _ _)

theorem Begins.nodes_lt (h : Begins c m t t' m') : t'.nodes < t.nodes := by
  have := Tree.nodes_le_of_mem h.mem_children
  rw [t.nodes_eq]
  omega

end PoolScaling.Expr
