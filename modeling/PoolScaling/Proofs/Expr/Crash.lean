import PoolScaling.Proofs.Expr.Visits
import PoolScaling.Proofs.Number.Place

/-! Crashes of an evaluation.

Of all operations on values only `clamp` can crash, and does for a bound that is NaN
(`Builtin.call_eq_crash_iff`). So an evaluation crashes exactly when it visits such a
call (`Tree.crashes_iff_visits`), and otherwise answers with a finite number or an
error (`evaluate_answers_iff`). -/
namespace PoolScaling.Expr
open Number

/-! ### Operations -/

section Outcome

variable {α β : Type} {o : Outcome α} {f : α → Outcome β}

instance (o : Outcome α) : Decidable (o = .error .crash) :=
  match o with
  | .ok _ => .isFalse nofun
  | .error (.error _) => .isFalse nofun
  | .error .crash => .isTrue rfl

theorem bind_eq_crash_iff :
    (o >>= f) = .error .crash ↔ o = .error .crash ∨ ∃ a, o = .ok a ∧ f a = .error .crash := by
  cases o with
  | ok a => simp [bind, Except.bind]
  | error e => simp [bind, Except.bind]

theorem bind_ne_crash (ho : o ≠ .error .crash) (hf : ∀ a, f a ≠ .error .crash) :
    (o >>= f) ≠ .error .crash := by
  rw [Ne, bind_eq_crash_iff]
  rintro (h | ⟨a, -, h⟩)
  · exact ho h
  · exact hf a h

theorem mapM_ne_crash {g : β → Outcome α} (hg : ∀ b, g b ≠ .error .crash) (bs : List β) :
    bs.mapM g ≠ .error .crash := by
  induction bs with
  | nil => nofun
  | cons b bs ih =>
    rw [List.mapM_cons]
    exact bind_ne_crash (hg b) fun a => bind_ne_crash ih nofun

end Outcome

theorem Context.resolve_ne_crash (c : Context) (name : String) : c.resolve name ≠ .error .crash := by
  unfold resolve
  repeat' split
  all_goals exact nofun

theorem Arithmetic.apply_ne_crash (op : Arithmetic) (left right : Value) :
    op.apply left right ≠ .error .crash := by
  unfold apply
  dsimp only
  repeat' split
  all_goals exact nofun

namespace Value

theorem negate_ne_crash (v : Value) : v.negate ≠ .error .crash := by
  cases v <;> exact nofun

theorem member_ne_crash (v : Value) (field : String) : v.member field ≠ .error .crash := by
  unfold member
  repeat' split
  all_goals exact nofun

theorem index_ne_crash (v i : Value) : v.index i ≠ .error .crash := by
  unfold index
  split
  · repeat' split
    all_goals exact nofun
  · exact member_ne_crash _ _
  · exact nofun

end Value

namespace Builtin

variable (b : Builtin)

theorem numberOf_ne_crash (v : Value) : b.numberOf v ≠ .error .crash := by
  cases v <;> exact nofun

theorem numberOf_eq_ok {v : Value} {n : Float} (h : b.numberOf v = .ok n) : v = .number n := by
  cases v with
  | number m =>
    cases h
    rfl
  | null | bool | string | array | record | builtin => cases h

theorem numbersOf_ne_crash (arguments : List Value) : b.numbersOf arguments ≠ .error .crash := by
  unfold numbersOf
  split
  · exact mapM_ne_crash b.numberOf_ne_crash _
  · exact mapM_ne_crash b.numberOf_ne_crash _

theorem someNumbersOf_ne_crash (arguments : List Value) : b.someNumbersOf arguments ≠ .error .crash := by
  refine bind_ne_crash (b.numbersOf_ne_crash arguments) fun ns => ?_
  split <;> exact nofun

theorem onNumber_ne_crash (f : Float → Float) (arguments : List Value) :
    b.onNumber f arguments ≠ .error .crash := by
  unfold onNumber
  split
  · exact bind_ne_crash (b.numberOf_ne_crash _) nofun
  · exact nofun

theorem pluckFrom_ne_crash (field : String) (items : List Value) :
    pluckFrom field items ≠ .error .crash := by
  refine mapM_ne_crash (fun item => ?_) items
  repeat' split
  all_goals exact nofun

theorem call_ne_crash (hb : b ≠ clamp) (arguments : List Value) : b.call arguments ≠ .error .crash := by
  cases b with
  | clamp => exact absurd rfl hb
  | max | min | avg => exact bind_ne_crash (someNumbersOf_ne_crash _ _) nofun
  | sum => exact bind_ne_crash (numbersOf_ne_crash _ _) nofun
  | abs | ceil | floor | round | sqrt => exact onNumber_ne_crash _ _ _
  | count =>
    unfold call
    dsimp only
    split <;> exact nofun
  | pow =>
    unfold call
    dsimp only
    split
    · exact bind_ne_crash (numberOf_ne_crash _ _) fun x =>
        bind_ne_crash (numberOf_ne_crash _ _) nofun
    · exact nofun
  | pluck =>
    unfold call
    dsimp only
    split
    · exact bind_ne_crash (pluckFrom_ne_crash _ _) nofun
    · exact nofun
    · exact nofun

/-- **The only crash of a builtin.** -/
theorem call_eq_crash_iff (arguments : List Value) :
    b.call arguments = .error .crash ↔
      b = clamp ∧ ∃ x lo hi, arguments = [.number x, .number lo, .number hi] ∧
        (lo.isNaN = true ∨ hi.isNaN = true) := by
  constructor
  · intro h
    obtain rfl : b = clamp := by
      by_contra hb
      exact b.call_ne_crash hb arguments h
    refine ⟨rfl, ?_⟩
    unfold call at h
    dsimp only at h
    split at h
    · obtain hx | ⟨x, hx, h⟩ := bind_eq_crash_iff.mp h
      · exact absurd hx (numberOf_ne_crash _ _)
      obtain hlo | ⟨lo, hlo, h⟩ := bind_eq_crash_iff.mp h
      · exact absurd hlo (numberOf_ne_crash _ _)
      obtain hhi | ⟨hi, hhi, h⟩ := bind_eq_crash_iff.mp h
      · exact absurd hhi (numberOf_ne_crash _ _)
      rw [numberOf_eq_ok _ hx, numberOf_eq_ok _ hlo, numberOf_eq_ok _ hhi]
      by_cases hlt : hi < lo
      · rw [if_pos hlt] at h
        cases h
      · by_cases hle : lo ≤ hi
        · rw [if_neg hlt, if_pos hle] at h
          cases h
        · exact ⟨x, lo, hi, rfl, not_lt_not_le_iff.mp ⟨hlt, hle⟩⟩
    · cases h
  · rintro ⟨rfl, x, lo, hi, rfl, hnan⟩
    obtain ⟨hlt, hle⟩ := not_lt_not_le_iff.mpr hnan
    show (if hi < lo then fail _ else if lo ≤ hi then .ok _ else .error .crash : Outcome Value) = _
    rw [if_neg hlt, if_neg hle]

end Builtin

/-! ### Nodes -/

/-- Whether an evaluation crashes from a meter. -/
def Eval.Crashes {α : Type} (x : Eval α) (m : Meter) : Prop := ∃ m', x m = .error .crash m'

namespace Eval

variable {α β : Type} {x : Eval α} {f : α → Eval β} {m : Meter}

theorem not_crashes_pure (a : α) : ¬ Crashes (pure a) m := nofun

theorem not_crashes_fail (e : EvalError) : ¬ Crashes (fail e : Eval α) m := nofun

theorem crashes_ofResult {o : Outcome α} : Crashes (Change.ofResult o) m ↔ o = .error .crash := by
  cases o with
  | ok a => exact ⟨nofun, nofun⟩
  | error e =>
    constructor
    · intro h
      obtain ⟨m', h⟩ := h
      cases h
      rfl
    · intro h
      cases h
      exact ⟨m, rfl⟩

theorem crashes_bind :
    Crashes (x >>= f) m ↔ Crashes x m ∨ ∃ a m', x m = .ok a m' ∧ Crashes (f a) m' := by
  unfold Crashes
  cases hx : x m with
  | ok a m' => simp [bind_ok hx]
  | error e m' => simp [bind_error hx]

/-- What follows without a crash adds none. -/
theorem crashes_bind_of_not (hf : ∀ a m, ¬ Crashes (f a) m) : Crashes (x >>= f) m ↔ Crashes x m := by
  rw [crashes_bind, or_iff_left]
  intro h
  obtain ⟨a, m', -, h⟩ := h
  exact hf a m' h

theorem not_crashes_ofResult {o : Outcome α} (h : o ≠ .error .crash) : ¬ Crashes (Change.ofResult o) m := by
  rw [crashes_ofResult]
  exact h

/-- The bookkeeping of a node does not crash. -/
theorem crashes_atNode {c : Context} :
    Crashes (atNode c x) m ↔ ∃ m₁, enter? c m = some m₁ ∧ Crashes x m₁ := by
  unfold Crashes
  cases h : enter? c m with
  | none =>
    obtain ⟨l, m', hlimit⟩ := atNode_of_not_enter (x := x) h
    simp [hlimit]
  | some m₁ =>
    rw [atNode_of_enter h]
    unfold closing
    cases hx : x m₁ <;> simp [hx]

/-- An operand crashes only when the operator needs it. -/
theorem crashes_combine {left : Value} {op : BinaryOp} {x : Eval Value} :
    Crashes (combine left op x) m ↔ op.needs left = true ∧ Crashes x m := by
  unfold combine BinaryOp.needs
  cases op with
  | both => cases left.isTruthy <;> simp [not_crashes_pure]
  | either => cases left.isTruthy <;> simp [not_crashes_pure]
  | equal => simp only [crashes_bind_of_not fun _ _ => not_crashes_pure _, true_and]
  | unequal => simp only [crashes_bind_of_not fun _ _ => not_crashes_pure _, true_and]
  | arithmetic op =>
    simp only [crashes_bind_of_not fun _ _ => not_crashes_ofResult (op.apply_ne_crash _ _), true_and]

end Eval

open Eval

namespace Tree

variable {c : Context} {m : Meter}

theorem crashes_evalItems (ts : List Tree) :
    Crashes (evalItems c ts) m ↔ ∃ t' m', BeginsItem c ts m t' m' ∧ Crashes (t'.eval c) m' := by
  induction ts generalizing m with
  | nil =>
    rw [evalItems]
    constructor
    · intro h
      exact absurd h (not_crashes_pure _)
    · intro h
      obtain ⟨_, _, h, -⟩ := h
      cases h
  | cons t ts ih =>
    rw [evalItems, crashes_bind]
    simp only [crashes_bind_of_not fun _ _ => not_crashes_pure _, ih]
    constructor
    · intro h
      rcases h with h | ⟨v, m₁, hv, t', m', hbegins, h⟩
      · exact ⟨t, m, .head, h⟩
      · exact ⟨t', m', .tail hv hbegins, h⟩
    · intro h
      obtain ⟨t', m', hbegins, h⟩ := h
      cases hbegins with
      | head => exact .inl h
      | tail hv hrest => exact .inr ⟨_, _, hv, t', m', hrest, h⟩

theorem crashes_evalFields (fields : List (String × Tree)) :
    Crashes (evalFields c fields) m ↔ Crashes (evalItems c (fields.map Prod.snd)) m := by
  induction fields generalizing m with
  | nil =>
    rw [evalFields, List.map_nil, evalItems]
    exact iff_of_false (not_crashes_pure _) (not_crashes_pure _)
  | cons field fields ih =>
    obtain ⟨key, t⟩ := field
    rw [evalFields, List.map_cons, evalItems, crashes_bind, crashes_bind]
    simp only [crashes_bind_of_not fun _ _ => not_crashes_pure _, ih]

theorem crashes_evalRun (left : Value) (rest : List (BinaryOp × Tree)) :
    Crashes (evalRun c left rest) m ↔
      ∃ t' m', BeginsOperand c left rest m t' m' ∧ Crashes (t'.eval c) m' := by
  induction rest generalizing left m with
  | nil =>
    rw [evalRun]
    constructor
    · intro h
      exact absurd h (not_crashes_pure _)
    · intro h
      obtain ⟨_, _, h, -⟩ := h
      cases h
  | cons operand rest ih =>
    obtain ⟨op, t⟩ := operand
    rw [evalRun_cons, crashes_bind, crashes_combine]
    simp only [ih]
    constructor
    · intro h
      rcases h with ⟨hneeds, h⟩ | ⟨v, m₁, hv, t', m', hbegins, h⟩
      · exact ⟨t, m, .head hneeds, h⟩
      · exact ⟨t', m', .tail hv hbegins, h⟩
    · intro h
      obtain ⟨t', m', hbegins, h⟩ := h
      cases hbegins with
      | head hneeds => exact .inl ⟨hneeds, h⟩
      | tail hv hrest => exact .inr ⟨_, _, hv, t', m', hrest, h⟩

/-- `ClampsNaN c m t` says that the node `t`, evaluated from `m` on inside it, calls `clamp`
with a bound that is NaN. -/
inductive ClampsNaN (c : Context) (m : Meter) : Tree → Prop
  | call {callee arguments m₁ m₂ x lo hi} (hcallee : callee.eval c m = .ok (.builtin .clamp) m₁)
      (harguments : evalItems c arguments m₁ = .ok [.number x, .number lo, .number hi] m₂)
      (hnan : lo.isNaN = true ∨ hi.isNaN = true) : ClampsNaN c m (.call callee arguments)

variable {m₁ : Meter} {t t' : Tree} {m' : Meter}

/-- A node crashes when a child does that it evaluates. -/
theorem crashes_of_begins (hm : enter? c m = some m₁) (h : Begins c m₁ t t' m')
    (ht' : Crashes (t'.eval c) m') : Crashes (t.eval c) m := by
  rw [Tree.eval.eq_def, crashes_atNode]
  refine ⟨m₁, hm, ?_⟩
  cases h with
  | item h =>
    exact crashes_bind.mpr (.inl ((crashes_evalItems _).mpr ⟨t', m', h, ht'⟩))
  | field h =>
    refine crashes_bind.mpr (.inl ?_)
    exact (crashes_evalFields _).mpr ((crashes_evalItems _).mpr ⟨t', m', h, ht'⟩)
  | operand | first | condition | member | target | callee =>
    exact crashes_bind.mpr (.inl ht')
  | later hfirst h =>
    exact crashes_bind.mpr (.inr ⟨_, _, hfirst, (crashes_evalRun _ _).mpr ⟨t', m', h, ht'⟩⟩)
  | yes hcondition hv =>
    refine crashes_bind.mpr (.inr ⟨_, _, hcondition, ?_⟩)
    rw [if_pos hv]
    exact ht'
  | no hcondition hv =>
    refine crashes_bind.mpr (.inr ⟨_, _, hcondition, ?_⟩)
    rw [if_neg (Bool.not_eq_true _ ▸ hv)]
    exact ht'
  | place htarget =>
    exact crashes_bind.mpr (.inr ⟨_, _, htarget, crashes_bind.mpr (.inl ht')⟩)
  | argument hcallee h =>
    refine crashes_bind.mpr (.inr ⟨_, _, hcallee, crashes_bind.mpr (.inl ?_)⟩)
    exact (crashes_evalItems _).mpr ⟨t', m', h, ht'⟩

theorem crashes_of_clampsNaN (hm : enter? c m = some m₁) (h : ClampsNaN c m₁ t) :
    Crashes (t.eval c) m := by
  obtain ⟨hcallee, harguments, hnan⟩ := h
  rw [Tree.eval, crashes_atNode]
  refine ⟨m₁, hm, crashes_bind.mpr (.inr ⟨_, _, hcallee, crashes_bind.mpr (.inr ⟨_, _, harguments, ?_⟩)⟩)⟩
  exact crashes_ofResult.mpr ((Builtin.call_eq_crash_iff _ _).mpr ⟨rfl, _, _, _, rfl, hnan⟩)

/-- A node that crashes evaluates a child that does, or is itself a call of `clamp`. -/
theorem begins_of_crashes (h : Crashes (t.eval c) m) :
    ∃ m₁, enter? c m = some m₁ ∧
      ((∃ t' m', Begins c m₁ t t' m' ∧ Crashes (t'.eval c) m') ∨ ClampsNaN c m₁ t) := by
  rw [Tree.eval.eq_def, crashes_atNode] at h
  obtain ⟨m₁, hm, h⟩ := h
  refine ⟨m₁, hm, ?_⟩
  cases t with
  | number | string | bool | null =>
    exact absurd h (not_crashes_pure _)
  | name s =>
    exact absurd h (not_crashes_ofResult (c.resolve_ne_crash s))
  | array items =>
    dsimp only at h
    rw [crashes_bind_of_not fun _ _ => not_crashes_pure _, crashes_evalItems] at h
    obtain ⟨t', m', hbegins, h⟩ := h
    exact .inl ⟨t', m', .item hbegins, h⟩
  | record fields =>
    dsimp only at h
    rw [crashes_bind_of_not fun _ _ => not_crashes_pure _, crashes_evalFields, crashes_evalItems] at h
    obtain ⟨t', m', hbegins, h⟩ := h
    exact .inl ⟨t', m', .field hbegins, h⟩
  | unary op operand =>
    dsimp only at h
    cases op with
    | not =>
      rw [crashes_bind_of_not fun _ _ => not_crashes_pure _] at h
      exact .inl ⟨_, _, .operand, h⟩
    | negate =>
      rw [crashes_bind_of_not fun v _ => not_crashes_ofResult v.negate_ne_crash] at h
      exact .inl ⟨_, _, .operand, h⟩
  | run first rest =>
    dsimp only at h
    rcases crashes_bind.mp h with h | ⟨v, m₂, hfirst, h⟩
    · exact .inl ⟨_, _, .first, h⟩
    · obtain ⟨t', m', hbegins, h⟩ := (crashes_evalRun v rest).mp h
      exact .inl ⟨t', m', .later hfirst hbegins, h⟩
  | conditional condition yes no =>
    dsimp only at h
    rcases crashes_bind.mp h with h | ⟨v, m₂, hcondition, h⟩
    · exact .inl ⟨_, _, .condition, h⟩
    · cases hv : v.isTruthy with
      | true =>
        rw [if_pos hv] at h
        exact .inl ⟨_, _, .yes hcondition hv, h⟩
      | false =>
        rw [if_neg (Bool.not_eq_true _ ▸ hv)] at h
        exact .inl ⟨_, _, .no hcondition hv, h⟩
  | member target field =>
    dsimp only at h
    rw [crashes_bind_of_not fun v _ => not_crashes_ofResult (v.member_ne_crash field)] at h
    exact .inl ⟨_, _, .member, h⟩
  | index target i =>
    dsimp only at h
    rcases crashes_bind.mp h with h | ⟨v, m₂, htarget, h⟩
    · exact .inl ⟨_, _, .target, h⟩
    · rw [crashes_bind_of_not fun w _ => not_crashes_ofResult (v.index_ne_crash w)] at h
      exact .inl ⟨_, _, .place htarget, h⟩
  | call callee arguments =>
    dsimp only at h
    rcases crashes_bind.mp h with h | ⟨v, m₂, hcallee, h⟩
    · exact .inl ⟨_, _, .callee, h⟩
    · cases v with
      | builtin b =>
        rcases crashes_bind.mp h with h | ⟨values, m₃, harguments, h⟩
        · obtain ⟨t', m', hbegins, h⟩ := (crashes_evalItems arguments).mp h
          exact .inl ⟨t', m', .argument hcallee hbegins, h⟩
        · obtain ⟨rfl, x, lo, hi, rfl, hnan⟩ := (b.call_eq_crash_iff values).mp (crashes_ofResult.mp h)
          exact .inr (.call hcallee harguments hnan)
      | null | bool | number | string | array | record => exact absurd h (not_crashes_fail _)

/-- **Crashes of a tree.** Evaluating a tree crashes exactly when it visits a call of `clamp`
with a bound that is NaN. -/
theorem crashes_iff_visits (t : Tree) (m : Meter) :
    Crashes (t.eval c) m ↔
      ∃ t' m' m₁, Visits c t m t' m' ∧ enter? c m' = some m₁ ∧ ClampsNaN c m₁ t' := by
  constructor
  · intro h
    obtain ⟨m₁, hm, ⟨t', m', hbegins, ht'⟩ | hclamps⟩ := begins_of_crashes h
    · have := hbegins.nodes_lt
      obtain ⟨t'', m'', m₂, hvisits, hm'', hclamps⟩ := (crashes_iff_visits t' m').mp ht'
      exact ⟨t'', m'', m₂, .more hm hbegins hvisits, hm'', hclamps⟩
    · exact ⟨t, m, m₁, .refl t m, hm, hclamps⟩
  · intro h
    obtain ⟨t', m', m₁, hvisits, hm, hclamps⟩ := h
    induction hvisits with
    | refl t m => exact crashes_of_clampsNaN hm hclamps
    | more hm' hbegins _ ih => exact crashes_of_begins hm' hbegins (ih hm hclamps)
termination_by t.nodes

end Tree

/-! ### Programs -/

theorem crashes_runStatements {c : Context} {m : Meter} (last : Option Value) (ss : List Statement) :
    Crashes (runStatements c last ss) m ↔
      ∃ c' t' m', BeginsStatement c ss m c' t' m' ∧ Crashes (t'.eval c') m' := by
  induction ss generalizing c last m with
  | nil =>
    refine iff_of_false ?_ ?_
    · cases last with
      | some v => exact not_crashes_pure v
      | none => exact not_crashes_fail .empty
    · rintro ⟨_, _, _, h, -⟩
      cases h
  | cons s rest ih =>
    cases s with
    | define name t =>
      rw [runStatements, crashes_bind]
      simp only [ih]
      constructor
      · intro h
        rcases h with h | ⟨v, m₁, hv, c', t', m', hbegins, h⟩
        · exact ⟨c, t, m, .head, h⟩
        · exact ⟨c', t', m', .define hv hbegins, h⟩
      · intro h
        obtain ⟨c', t', m', hbegins, h⟩ := h
        cases hbegins with
        | head => exact .inl h
        | define hv hrest => exact .inr ⟨_, _, hv, c', t', m', hrest, h⟩
    | yield t =>
      rw [runStatements, crashes_bind]
      simp only [ih]
      constructor
      · intro h
        rcases h with h | ⟨v, m₁, hv, c', t', m', hbegins, h⟩
        · exact ⟨c, t, m, .head, h⟩
        · exact ⟨c', t', m', .yield hv hbegins, h⟩
      · intro h
        obtain ⟨c', t', m', hbegins, h⟩ := h
        cases hbegins with
        | head => exact .inl h
        | yield hv hrest => exact .inr ⟨_, _, hv, c', t', m', hrest, h⟩
    | answer t =>
      rw [runStatements]
      constructor
      · intro h
        exact ⟨c, t, m, .head, h⟩
      · intro h
        obtain ⟨c', t', m', hbegins, h⟩ := h
        cases hbegins with
        | head => exact h

variable {bindings : Dictionary Value} {limits : Limits} {stopwatch : Stopwatch}

/-- Whether running a program calls `clamp` with a bound that is NaN. -/
def Program.ClampsNaN (p : Program) (bindings : Dictionary Value) (limits : Limits)
    (stopwatch : Stopwatch) : Prop :=
  ∃ c t m m₁, p.Visits bindings limits stopwatch c t m ∧ enter? c m = some m₁ ∧ t.ClampsNaN c m₁

theorem Program.run_eq_crash_iff (p : Program) (h : limits.timeout.seconds < clockRange) :
    p.run bindings limits stopwatch = .error .crash ↔ p.ClampsNaN bindings limits stopwatch := by
  have hrun : p.run bindings limits stopwatch = .error .crash ↔
      Crashes (runStatements ⟨[], bindings, limits, stopwatch⟩ none p.statements) ⟨0, 0⟩ := by
    unfold Program.run Crashes
    rw [if_neg (Nat.not_le.mpr h)]
    cases runStatements ⟨[], bindings, limits, stopwatch⟩ none p.statements ⟨0, 0⟩ <;> simp
  rw [hrun, crashes_runStatements]
  simp only [Tree.crashes_iff_visits]
  constructor
  · intro h
    obtain ⟨c, t₀, m₀, hbegins, t, m, m₁, hvisits, hm, hclamps⟩ := h
    exact ⟨c, t, m, m₁, ⟨t₀, m₀, hbegins, hvisits⟩, hm, hclamps⟩
  · intro h
    obtain ⟨c, t, m, m₁, ⟨t₀, m₀, hbegins, hvisits⟩, hm, hclamps⟩ := h
    exact ⟨c, t₀, m₀, hbegins, t, m, m₁, hvisits, hm, hclamps⟩

theorem isFinite_of_evaluate {source : String} {n : Float}
    (h : evaluate source bindings limits stopwatch = .ok n) : n.isFinite = true := by
  unfold evaluate at h
  split at h
  · cases h
  · split at h
    · cases h
    · split at h
      · rename_i hfinite
        cases h
        exact hfinite
      · cases h
    · cases h

theorem evaluate_eq_crash_iff (source : String) (h : limits.timeout.seconds < clockRange) :
    evaluate source bindings limits stopwatch = .error .crash ↔
      ∃ p, compile source = .ok p ∧ p.ClampsNaN bindings limits stopwatch := by
  unfold evaluate
  cases hp : compile source with
  | error e => simp [fail]
  | ok p =>
    simp only [Except.ok.injEq, exists_eq_left', ← p.run_eq_crash_iff h]
    cases p.run bindings limits stopwatch with
    | error f => simp
    | ok v =>
      cases v with
      | number n => by_cases hn : n.isFinite = true <;> simp [fail, hn]
      | null | bool | string | array | record | builtin => simp [fail]

/-- **Evaluation without a crash.** Unless the timeout is out of the range of the clock, a
source is answered with a finite number or an error exactly when running it never
calls `clamp` with a bound that is NaN: whatever the bindings, the limits and the
clock, no other call, index, member, operator or literal crashes. -/
theorem evaluate_answers_iff (source : String) (h : limits.timeout.seconds < clockRange) :
    ((∃ n, evaluate source bindings limits stopwatch = .ok n ∧ n.isFinite = true) ∨
        ∃ e, evaluate source bindings limits stopwatch = .error (.error e)) ↔
      ∀ p, compile source = .ok p → ¬ p.ClampsNaN bindings limits stopwatch := by
  have hcrash : evaluate source bindings limits stopwatch = .error .crash ↔ _ := evaluate_eq_crash_iff source h
  constructor
  · intro hanswers p hp hclamps
    have heq := hcrash.mpr ⟨p, hp, hclamps⟩
    rcases hanswers with ⟨n, hn, -⟩ | ⟨e, he⟩
    · rw [heq] at hn
      cases hn
    · rw [heq] at he
      cases he
  · intro hnever
    cases heq : evaluate source bindings limits stopwatch with
    | ok n => exact .inl ⟨n, rfl, isFinite_of_evaluate heq⟩
    | error f =>
      cases f with
      | error e => exact .inr ⟨e, rfl⟩
      | crash =>
        obtain ⟨p, hp, hclamps⟩ := hcrash.mp heq
        exact absurd hclamps (hnever p hp)

/-- Bounds in order are no NaN. -/
theorem evaluate_answers_clamp :
    Limits.standard.timeout.seconds < clockRange ∧
      ∀ p, compile "clamp(5, 1, 2)" = .ok p → ¬ p.ClampsNaN [] .standard .still :=
  ⟨by decide, (evaluate_answers_iff "clamp(5, 1, 2)" (by decide)).mp
    (.inl ⟨2.0, Change.eq_ok_of_toOption (by decide +kernel), by decide⟩)⟩

/-- Zero by zero is NaN, which is neither above a bound nor from it on. -/
theorem evaluate_clamp_crashes : evaluate "clamp(1, 0 / 0, 2)" [] .standard .still = .error .crash := by
  decide +kernel

end PoolScaling.Expr
