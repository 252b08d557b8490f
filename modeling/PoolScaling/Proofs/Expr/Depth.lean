import PoolScaling.Proofs.Expr.Coverage
import PoolScaling.Proofs.Expr.Limits

/-! Depth of an evaluation.

The depth on a meter is never looked up in a tree: it is counted up and down on every
way in and out of a node. In a compiled program it is nevertheless the number of
ancestors of the node that is evaluated, as the tree has them, and zero between
statements, so the limit of depth is never reached (`compile_depth`). -/
namespace PoolScaling.Expr
open Eval

/-! ### Ancestors -/

/-- `VisitsVia c t m ancestors t' m'` says that evaluating `t` from `m` evaluates `t'` from
`m'` as a descendant of `ancestors`, of which each evaluates the next. -/
inductive VisitsVia (c : Context) : Tree → Meter → List Tree → Tree → Meter → Prop
  | refl (t : Tree) (m : Meter) : VisitsVia c t m [] t m
  | more {t m m₁ t' m' ancestors t'' m''} (hm : Eval.enter? c m = some m₁) (h : Begins c m₁ t t' m')
      (hrest : VisitsVia c t' m' ancestors t'' m'') : VisitsVia c t m (t :: ancestors) t'' m''

variable {c : Context} {m m' m₁ : Meter} {t t' : Tree} {ancestors : List Tree}

/-- Every visit is through some ancestors. -/
theorem visits_iff : Visits c t m t' m' ↔ ∃ ancestors, VisitsVia c t m ancestors t' m' := by
  constructor
  · intro h
    induction h with
    | refl t m => exact ⟨[], .refl t m⟩
    | more hm h _ ih =>
      obtain ⟨ancestors, hrest⟩ := ih
      exact ⟨_, .more hm h hrest⟩
  · rintro ⟨ancestors, h⟩
    induction h with
    | refl t m => exact .refl t m
    | more hm h _ ih => exact .more hm h ih

/-- Whether a node of a tree has these ancestors, from the root on. -/
def Tree.Path (t : Tree) : List Tree → Tree → Prop
  | [], t' => t' = t
  | ancestor :: ancestors, t' => ancestor = t ∧ ∃ child ∈ t.children, child.Path ancestors t'

theorem VisitsVia.path (h : VisitsVia c t m ancestors t' m') : t.Path ancestors t' := by
  induction h with
  | refl t m => rfl
  | more hm h hrest ih => exact ⟨rfl, _, h.mem_children, ih⟩

/-! ### Levels -/

/-- An evaluation ends at the depth where it began. -/
theorem Eval.Affordable.depth {α : Type} {x : Engine → Eval α} {height b : Nat} (h : Affordable x height b)
    (hroom : m.depth + height ≤ maxHeight) (e : Engine) : (Change.stateOf (x e m)).depth = m.depth := by
  obtain ⟨n, -, o, -, htakes⟩ := h
  have hx := htakes e m.steps m.depth hroom
  split at hx
  · obtain ⟨s', hx⟩ := hx
    rw [hx]
    rfl
  · rw [hx]
    cases o <;> rfl

theorem Tree.depth_eval (c : Context) (hroom : m.depth + t.height ≤ maxHeight) :
    (Change.stateOf (t.eval c m)).depth = m.depth :=
  (t.eval_affordable c).depth hroom c.engine

theorem Tree.depth_of_eval {v : Value} (h : t.eval c m = .ok v m₁) (hroom : m.depth + t.height ≤ maxHeight) :
    m₁.depth = m.depth := by
  have hdepth := Tree.depth_eval c hroom
  rw [h] at hdepth
  exact hdepth

theorem depth_of_combine {left v : Value} {op : BinaryOp} (h : combine left op (t.eval c) m = .ok v m₁)
    (hroom : m.depth + t.height ≤ maxHeight) : m₁.depth = m.depth := by
  have hdepth := ((t.eval_affordable c).combine left op).depth hroom c.engine
  rw [Context.under_engine, h] at hdepth
  exact hdepth

theorem BeginsItem.depth {ts : List Tree} (h : BeginsItem c ts m t' m')
    (hroom : ∀ t ∈ ts, m.depth + t.height ≤ maxHeight) : m'.depth = m.depth := by
  induction h with
  | head => rfl
  | tail h _ ih =>
    have hdepth := Tree.depth_of_eval h (hroom _ List.mem_cons_self)
    rw [ih fun t ht => hdepth ▸ hroom t (List.mem_cons_of_mem _ ht), hdepth]

theorem BeginsOperand.depth {left : Value} {rest : List (BinaryOp × Tree)}
    (h : BeginsOperand c left rest m t' m') (hroom : ∀ t ∈ rest.map Prod.snd, m.depth + t.height ≤ maxHeight) :
    m'.depth = m.depth := by
  induction h with
  | head => rfl
  | tail h _ ih =>
    have hdepth := depth_of_combine h (hroom _ List.mem_cons_self)
    rw [ih fun t ht => hdepth ▸ hroom t (List.mem_cons_of_mem _ ht), hdepth]

/-- Every child begins at the depth inside its parent. -/
theorem Begins.depth (h : Begins c m t t' m') (hroom : ∀ t' ∈ t.children, m.depth + t'.height ≤ maxHeight) :
    m'.depth = m.depth := by
  cases h with
  | item h | field h => exact h.depth hroom
  | operand | first | condition | member | target | callee => rfl
  | later hfirst h =>
    have hdepth := Tree.depth_of_eval hfirst (hroom _ List.mem_cons_self)
    rw [h.depth fun t ht => hdepth ▸ hroom t (List.mem_cons_of_mem _ ht), hdepth]
  | yes hcondition | no hcondition | place hcondition =>
    exact Tree.depth_of_eval hcondition (hroom _ List.mem_cons_self)
  | argument hcallee h =>
    have hdepth := Tree.depth_of_eval hcallee (hroom _ List.mem_cons_self)
    rw [h.depth fun t ht => hdepth ▸ hroom t (List.mem_cons_of_mem _ ht), hdepth]

/-- A node is evaluated at the depth of its ancestors. -/
theorem VisitsVia.depth (h : VisitsVia c t m ancestors t' m') (hroom : m.depth + t.height ≤ maxHeight) :
    m'.depth = m.depth + ancestors.length ∧ m'.depth + t'.height ≤ maxHeight := by
  induction h with
  | refl t m => exact ⟨rfl, hroom⟩
  | more hm h hrest ih =>
    cases eq_of_enter hm
    have hchild := Tree.height_lt_of_mem_children h.mem_children
    have hbegins := h.depth fun t' ht' => by
      have hlt := Tree.height_lt_of_mem_children ht'
      dsimp only
      omega
    dsimp only at hbegins
    obtain ⟨hdepth, hfits⟩ := ih (by omega)
    refine ⟨?_, hfits⟩
    rw [hdepth, hbegins, List.length_cons]
    omega

/-! ### Programs -/

theorem Engine.alarmWithin?_ne_depth (e : Engine) (s n most : Nat) : e.alarmWithin? s n ≠ some (.depth most) := by
  induction n with
  | zero => nofun
  | succ n ih =>
    intro h
    rw [alarmWithin?] at h
    rcases Option.or_eq_some_iff.mp h with h | ⟨-, h⟩
    · exact ih h
    · unfold alarm? at h
      split at h
      · cases h
      · split at h <;> cases h

/-- The statements of a bounded program begin at no depth, whatever the ones before them
came to. -/
theorem BeginsStatement.depth {c' : Context} {ss : List Statement} (h : BeginsStatement c ss m c' t' m')
    (hdepth : m.depth = 0) (hroom : ∀ s ∈ ss, s.tree.height ≤ maxHeight) :
    m'.depth = 0 ∧ t'.height ≤ maxHeight := by
  induction h with
  | head => exact ⟨hdepth, hroom _ List.mem_cons_self⟩
  | define h _ ih | yield h _ ih =>
    have hfirst := Tree.depth_of_eval h (by rw [hdepth, Nat.zero_add]; exact hroom _ List.mem_cons_self)
    exact ih (hfirst.trans hdepth) fun s hs => hroom s (List.mem_cons_of_mem _ hs)

/-- No run of a bounded program reaches a limit of depth. -/
theorem Program.run_ne_depth {p : Program} (h : p.Bounded) (bindings : Dictionary Value) (limits : Limits)
    (stopwatch : Stopwatch) (most : Nat) : p.run bindings limits stopwatch ≠ fail (.limit (.depth most)) := by
  intro hrun
  by_cases hrange : limits.timeout.seconds < clockRange
  · obtain ⟨n, -, o, ho, htakes⟩ := runStatements_affordable ⟨[], bindings, .standard, .still⟩ none h
    rw [run_of_takes htakes stopwatch hrange] at hrun
    split at hrun
    · rename_i l hl
      cases hrun
      exact Engine.alarmWithin?_ne_depth _ _ _ _ hl
    · exact ho ⟨_, hrun⟩
  · unfold Program.run at hrun
    rw [if_pos (Nat.not_lt.mp hrange)] at hrun
    cases hrun

/-- **Compiled programs stay within the limit of depth.** Whatever the bindings, the limits
and the clock, no run of one reaches it. Each of its statements begins and ends at no
depth. Each node that is evaluated begins and ends at the number of its ancestors in the
tree of its statement, which is below 256; and no step is taken but at such a node. -/
theorem compile_depth {source : String} {p : Program} (h : compile source = .ok p)
    (bindings : Dictionary Value) (limits : Limits) (stopwatch : Stopwatch) :
    (∀ most, p.run bindings limits stopwatch ≠ fail (.limit (.depth most))) ∧
    ∀ c t₀ m₀, BeginsStatement ⟨[], bindings, limits, stopwatch⟩ p.statements ⟨0, 0⟩ c t₀ m₀ →
      m₀.depth = 0 ∧ (Change.stateOf (t₀.eval c m₀)).depth = 0 ∧
      (∀ ancestors t m, VisitsVia c t₀ m₀ ancestors t m →
        t₀.Path ancestors t ∧ m.depth = ancestors.length ∧ ancestors.length < 256 ∧
          (Change.stateOf (t.eval c m)).depth = m.depth) ∧
      ∀ step, m₀.steps ≤ step → step < (Change.stateOf (t₀.eval c m₀)).steps →
        ∃ ancestors t m, VisitsVia c t₀ m₀ ancestors t m ∧ m.steps = step := by
  have hbounded := bounded_of_compile h
  refine ⟨p.run_ne_depth hbounded bindings limits stopwatch, fun c t₀ m₀ hbegins => ?_⟩
  obtain ⟨hdepth, hheight⟩ := hbegins.depth rfl hbounded
  refine ⟨hdepth, ?_, fun ancestors t m hvisits => ?_, fun step hle hlt => ?_⟩
  · rw [Tree.depth_eval c (by omega), hdepth]
  · obtain ⟨hlevel, hroom⟩ := hvisits.depth (by omega)
    have hpos := t.height_pos
    have hmax : maxHeight = 256 := rfl
    exact ⟨hvisits.path, by omega, by omega, Tree.depth_eval c hroom⟩
  · obtain ⟨t, m, hvisits, hstep⟩ := t₀.eval_covered m₀ step hle hlt
    obtain ⟨ancestors, hvia⟩ := visits_iff.mp hvisits
    exact ⟨ancestors, t, m, hvia, hstep⟩

/-- The name below two negations, if a program is nothing else. -/
def Program.negatedTwice? : Program → Option String
  | ⟨[.yield (.unary .not (.unary .not (.name s)))]⟩ => some s
  | _ => none

theorem Program.eq_of_negatedTwice? {p : Program} {s : String} (h : p.negatedTwice? = some s) :
    p = ⟨[.yield (.unary .not (.unary .not (.name s)))]⟩ := by
  unfold negatedTwice? at h
  split at h
  · cases h
    rfl
  · cases h

/-- The name in `!!x` is evaluated below two negations. -/
theorem compile_depth_two_negations :
    ∃ p, compile "!!x" = .ok p ∧ p.run [] .standard .still ≠ fail (.limit (.depth 256)) ∧
      ∃ c t₀ ancestors m, BeginsStatement c p.statements ⟨0, 0⟩ c t₀ ⟨0, 0⟩ ∧
        VisitsVia c t₀ ⟨0, 0⟩ ancestors (.name "x") m ∧ t₀.Path ancestors (.name "x") ∧ m.depth = 2 := by
  have hshape : (compile "!!x").toOption.bind Program.negatedTwice? = some "x" := by decide +kernel
  obtain ⟨p, hp, hname⟩ := Option.bind_eq_some_iff.mp hshape
  have hp := Change.eq_ok_of_toOption hp
  cases Program.eq_of_negatedTwice? hname
  obtain ⟨hrun, hstatements⟩ := compile_depth hp [] .standard .still
  have hbegins : BeginsStatement ⟨[], [], .standard, .still⟩
    [.yield (.unary .not (.unary .not (.name "x")))] ⟨0, 0⟩ _ _ ⟨0, 0⟩ := .head
  have hvisits : VisitsVia ⟨[], [], .standard, .still⟩ (.unary .not (.unary .not (.name "x"))) ⟨0, 0⟩ _
    (.name "x") ⟨2, 2⟩ := .more rfl .operand (.more rfl .operand (.refl _ _))
  obtain ⟨-, -, hnodes, -⟩ := hstatements _ _ _ hbegins
  obtain ⟨hpath, hdepth, -⟩ := hnodes _ _ _ hvisits
  exact ⟨_, hp, hrun 256, _, _, _, _, hbegins, hvisits, hpath, hdepth⟩

end PoolScaling.Expr
