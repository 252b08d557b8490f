import PoolScaling.Proofs.Expr.Cost

/-! Steps and visits.

A step is taken at every node that is visited, and at nothing else: each step of an
evaluation is the first one at some node that it visits (`Tree.eval_covered`). So what
holds at all visits holds at every moment at which a node begins to be evaluated. -/
namespace PoolScaling.Expr
open Eval

namespace Eval

variable {α β : Type} {x : Eval α} {f : α → Eval β} {m : Meter} {P Q : Tree → Meter → Prop}

/-- Whether every step of an evaluation is the first at a node of which `P` holds. -/
def Covered (x : Eval α) (m : Meter) (P : Tree → Meter → Prop) : Prop :=
  ∀ step, m.steps ≤ step → step < (Change.stateOf (x m)).steps → ∃ t' m', P t' m' ∧ m'.steps = step

theorem covered_of_steps_eq (h : (Change.stateOf (x m)).steps = m.steps) : Covered x m P := by
  intro step hle hlt
  omega

theorem covered_pure (a : α) : Covered (pure a) m P := covered_of_steps_eq rfl

theorem covered_ofResult (o : Outcome α) : Covered (Change.ofResult o) m P := by
  refine covered_of_steps_eq ?_
  cases o <;> rfl

theorem Covered.mono (h : Covered x m P) (hPQ : ∀ t' m', P t' m' → Q t' m') : Covered x m Q := by
  intro step hle hlt
  obtain ⟨t', m', ht', hstep⟩ := h step hle hlt
  exact ⟨t', m', hPQ t' m' ht', hstep⟩

theorem Covered.bind (h : Covered x m P) (hf : ∀ a m', x m = .ok a m' → Covered (f a) m' P) :
    Covered (x >>= f) m P := by
  intro step hle hlt
  cases hx : x m with
  | error e m' =>
    rw [bind_error hx] at hlt
    exact h step hle (by rw [hx]; exact hlt)
  | ok a m' =>
    rw [bind_ok hx] at hlt
    by_cases hfirst : step < m'.steps
    · exact h step hle (by rw [hx]; exact hfirst)
    · exact hf a m' hx step (by omega) hlt

theorem steps_closing : (Change.stateOf (closing x m)).steps = (Change.stateOf (x m)).steps := by
  unfold closing
  cases x m <;> rfl

/-- A node that is not entered takes the step that finds out. -/
theorem steps_of_not_enter {c : Context} (h : enter? c m = none) :
    (Change.stateOf (atNode c x m)).steps = m.steps + 1 := by
  have htick := tick_alarm c m
  rw [enter?_eq] at h
  unfold atNode
  cases hl : c.engine.alarm? (m.steps + 1) with
  | some l =>
    rw [hl] at htick
    rw [bind_error htick]
    rfl
  | none =>
    rw [hl] at h htick
    rw [bind_ok htick, get_bind]
    split
    · rfl
    · rename_i hdepth
      rw [if_neg hdepth] at h
      cases h

/-- The first step at a node is its own, and the others are those of its children. -/
theorem covered_atNode {c : Context} {t : Tree}
    (h : ∀ m₁, enter? c m = some m₁ →
      Covered x m₁ fun t'' m'' => ∃ t' m', Begins c m₁ t t' m' ∧ Visits c t' m' t'' m'') :
    Covered (atNode c x) m (Visits c t m) := by
  intro step hle hlt
  by_cases hown : step = m.steps
  · exact ⟨t, m, .refl t m, hown.symm⟩
  cases hm : enter? c m with
  | none =>
    rw [steps_of_not_enter hm] at hlt
    omega
  | some m₁ =>
    rw [atNode_of_enter hm, steps_closing] at hlt
    have hfirst : m₁.steps = m.steps + 1 := congrArg Meter.steps (eq_of_enter hm)
    obtain ⟨t'', m'', ⟨t', m', hbegins, hvisits⟩, hstep⟩ := h m₁ hm step (by omega) hlt
    exact ⟨t'', m'', .more hm hbegins hvisits, hstep⟩

theorem covered_combine {left : Value} {op : BinaryOp} {x : Eval Value}
    (h : op.needs left = true → Covered x m P) : Covered (combine left op x) m P := by
  unfold combine
  unfold BinaryOp.needs at h
  cases op with
  | both =>
    dsimp only at h ⊢
    split
    · rename_i hv
      exact h hv
    · exact covered_pure left
  | either =>
    dsimp only at h ⊢
    split
    · exact covered_pure left
    · rename_i hv
      exact h (by rw [Bool.not_eq_true] at hv; rw [hv]; rfl)
  | equal => exact (h rfl).bind fun _ _ _ => covered_pure _
  | unequal => exact (h rfl).bind fun _ _ _ => covered_pure _
  | arithmetic op => exact (h rfl).bind fun _ _ _ => covered_ofResult _

end Eval

/-! ### Trees -/

variable {c : Context}

mutual

/-- **Every step of an evaluation is the first at a node that it visits.** -/
theorem Tree.eval_covered (t : Tree) (m : Meter) : Covered (t.eval c) m (Visits c t m) := by
  rw [Tree.eval.eq_def]
  refine covered_atNode fun m₁ _ => ?_
  cases t with
  | number | string | bool | null => exact covered_pure _
  | name s => exact covered_ofResult _
  | array items =>
    refine Covered.bind ?_ fun _ _ _ => covered_pure _
    exact (Tree.evalItems_covered items m₁).mono fun t'' m'' ⟨t', m', hbegins, hvisits⟩ =>
      ⟨t', m', .item hbegins, hvisits⟩
  | record fields =>
    refine Covered.bind ?_ fun _ _ _ => covered_pure _
    exact (Tree.evalFields_covered fields m₁).mono fun t'' m'' ⟨t', m', hbegins, hvisits⟩ =>
      ⟨t', m', .field hbegins, hvisits⟩
  | unary op operand =>
    refine Covered.bind ?_ fun v _ _ => ?_
    · exact (Tree.eval_covered operand m₁).mono fun t'' m'' hvisits => ⟨operand, m₁, .operand, hvisits⟩
    · cases op with
      | not => exact covered_pure _
      | negate => exact covered_ofResult _
  | run first rest =>
    refine Covered.bind ?_ fun v m₂ hfirst => ?_
    · exact (Tree.eval_covered first m₁).mono fun t'' m'' hvisits => ⟨first, m₁, .first, hvisits⟩
    · exact (Tree.evalRun_covered v rest m₂).mono fun t'' m'' ⟨t', m', hbegins, hvisits⟩ =>
        ⟨t', m', .later hfirst hbegins, hvisits⟩
  | conditional condition yes no =>
    refine Covered.bind ?_ fun v m₂ hcondition => ?_
    · exact (Tree.eval_covered condition m₁).mono fun t'' m'' hvisits =>
        ⟨condition, m₁, .condition, hvisits⟩
    · split
      · rename_i hv
        exact (Tree.eval_covered yes m₂).mono fun t'' m'' hvisits => ⟨yes, m₂, .yes hcondition hv, hvisits⟩
      · rename_i hv
        exact (Tree.eval_covered no m₂).mono fun t'' m'' hvisits =>
          ⟨no, m₂, .no hcondition (Bool.not_eq_true _ ▸ hv), hvisits⟩
  | member target field =>
    refine Covered.bind ?_ fun _ _ _ => covered_ofResult _
    exact (Tree.eval_covered target m₁).mono fun t'' m'' hvisits => ⟨target, m₁, .member, hvisits⟩
  | index target i =>
    refine Covered.bind ?_ fun v m₂ htarget => Covered.bind ?_ fun _ _ _ => covered_ofResult _
    · exact (Tree.eval_covered target m₁).mono fun t'' m'' hvisits => ⟨target, m₁, .target, hvisits⟩
    · exact (Tree.eval_covered i m₂).mono fun t'' m'' hvisits => ⟨i, m₂, .place htarget, hvisits⟩
  | call callee arguments =>
    refine Covered.bind ?_ fun v m₂ hcallee => ?_
    · exact (Tree.eval_covered callee m₁).mono fun t'' m'' hvisits => ⟨callee, m₁, .callee, hvisits⟩
    · cases v with
      | builtin b =>
        refine Covered.bind ?_ fun _ _ _ => covered_ofResult _
        exact (Tree.evalItems_covered arguments m₂).mono fun t'' m'' ⟨t', m', hbegins, hvisits⟩ =>
          ⟨t', m', .argument hcallee hbegins, hvisits⟩
      | null | bool | number | string | array | record => exact covered_of_steps_eq rfl

theorem Tree.evalItems_covered (ts : List Tree) (m : Meter) :
    Covered (Tree.evalItems c ts) m fun t'' m'' => ∃ t' m', BeginsItem c ts m t' m' ∧ Visits c t' m' t'' m'' := by
  cases ts with
  | nil =>
    rw [Tree.evalItems]
    exact covered_pure _
  | cons t ts =>
    rw [Tree.evalItems]
    refine Covered.bind ?_ fun v m₁ ht => Covered.bind ?_ fun _ _ _ => covered_pure _
    · exact (Tree.eval_covered t m).mono fun t'' m'' hvisits => ⟨t, m, .head, hvisits⟩
    · exact (Tree.evalItems_covered ts m₁).mono fun t'' m'' ⟨t', m', hbegins, hvisits⟩ =>
        ⟨t', m', .tail ht hbegins, hvisits⟩

theorem Tree.evalFields_covered (fields : List (String × Tree)) (m : Meter) :
    Covered (Tree.evalFields c fields) m fun t'' m'' =>
      ∃ t' m', BeginsItem c (fields.map Prod.snd) m t' m' ∧ Visits c t' m' t'' m'' := by
  match fields with
  | [] =>
    rw [Tree.evalFields]
    exact covered_pure _
  | (key, t) :: fields =>
    rw [Tree.evalFields]
    refine Covered.bind ?_ fun v m₁ ht => Covered.bind ?_ fun _ _ _ => covered_pure _
    · exact (Tree.eval_covered t m).mono fun t'' m'' hvisits => ⟨t, m, .head, hvisits⟩
    · exact (Tree.evalFields_covered fields m₁).mono fun t'' m'' ⟨t', m', hbegins, hvisits⟩ =>
        ⟨t', m', .tail ht hbegins, hvisits⟩

theorem Tree.evalRun_covered (left : Value) (rest : List (BinaryOp × Tree)) (m : Meter) :
    Covered (Tree.evalRun c left rest) m fun t'' m'' =>
      ∃ t' m', BeginsOperand c left rest m t' m' ∧ Visits c t' m' t'' m'' := by
  match rest with
  | [] =>
    rw [Tree.evalRun]
    exact covered_pure _
  | (op, t) :: rest =>
    rw [evalRun_cons]
    refine Covered.bind (covered_combine fun hneeds => ?_) fun v m₁ hv => ?_
    · exact (Tree.eval_covered t m).mono fun t'' m'' hvisits => ⟨t, m, .head hneeds, hvisits⟩
    · exact (Tree.evalRun_covered v rest m₁).mono fun t'' m'' ⟨t', m', hbegins, hvisits⟩ =>
        ⟨t', m', .tail hv hbegins, hvisits⟩

end

end PoolScaling.Expr
