import PoolScaling.Proofs.Expr.Names
import PoolScaling.Proofs.Expr.Reference

/-! Scripts of one expression.

A script that is one expression has the ordinary value of the expression, when there are
steps for all its nodes and it is not ended by the clock (`Program.run_yield`). The clock is
looked at so seldom that a short script is never ended by it (`timedOut_of_short`). -/
namespace PoolScaling.Expr
open Eval

variable {e : Engine} {t : Tree} {bindings : Dictionary Value} {source x f : String} {contents : List Content}

/-! ### Compiling -/

/-- A script of one expression. -/
def Tree.program (t : Tree) : Program := ⟨[.yield t]⟩

theorem Tree.bounded_program (h : t.height ≤ maxHeight) : t.program.Bounded :=
  List.forall_mem_singleton.mpr h

/-- An expression on one line compiles to its tree, unless it is too tall. -/
theorem compile_expression {source : String} {t : Tree} (hlexes : Lexes source.toList contents)
    (hspells : ∀ ts, ts.map Token.content = contents → (∀ t ∈ ts, t.newlineBefore = false) →
      Spells 1 false (.body t) ts)
    (hfirst : ∀ w, contents.head? = some (.name w) → w ∉ leadingWords) (hheight : t.height ≤ maxHeight) :
    compile source = .ok t.program := by
  obtain ⟨ts, htokens, hcontents, hline⟩ := hlexes 0
  have hexpression : Spells 0 false (.expression t) ts := .expression (by decide) (hspells ts hcontents hline)
  have hsentence : Sentence (.yield t) ts := by
    refine .yield hexpression fun first hhead w hw => hfirst w ?_
    rw [← hcontents, List.head?_map, Option.mem_def.mp hhead, Option.map_some, hw]
  have hscript : Script [.yield t] ts := by
    have hnone : ∀ t ∈ ([] : List Token), Parser.isSeparator t = true := fun _ h => absurd h List.not_mem_nil
    have hend : ∀ t ∈ ([] : List Token).head?, Parser.isSeparator t = true ∨ t.newlineBefore = true := by
      rintro t ⟨⟩
    have hcons := Script.cons hnone hsentence hend (.done hnone)
    rwa [List.nil_append, List.append_nil] at hcons
  refine compile_eq_ok_iff.mpr ⟨ts, htokens, Parser.parse_of_script hscript _, nofun, ?_⟩
  rintro s hs
  obtain rfl := List.mem_singleton.mp hs
  exact hheight

/-- A field of a name compared with the name in quotes, as a script. -/
theorem compile_member_equal (hx : IsReference x) (hf : isName f = true) :
    compile (x ++ "." ++ f ++ " == '" ++ x ++ "'") =
      .ok (Tree.run (.member (.name x) f) [(.equal, .string x)]).program := by
  have hequal : Mark.leading? ('=' :: '=' :: ' ' :: '\'' :: (x.toList ++ ['\''])) = some (['=', '='], .equal) := rfl
  have hquoted := Lexes.space (Lexes.quoted hx.isName lexes_nil)
  have hright := Lexes.space (Lexes.mark (by decide) (by decide) rfl hequal hquoted)
  have hlexes := Lexes.member hx.isName hf (fun d hd => by cases hd; decide) hright
  have htext : (x ++ "." ++ f ++ " == '" ++ x ++ "'").toList =
      (x ++ "." ++ f).toList ++ ' ' :: '=' :: '=' :: ' ' :: '\'' :: (x.toList ++ ['\'']) := by
    simp [String.toList_append]
  rw [← htext] at hlexes
  refine compile_expression hlexes (fun ts hcontents hline => ?_) ?_ ?_
  · obtain ⟨us, ts, rfl, hmember, hcontents⟩ := List.map_eq_append_iff.mp
      (show ts.map Token.content = memberContents x f ++ [.mark .equal, .string x] from hcontents)
    obtain ⟨q, ts, rfl, hq, hcontents⟩ := List.map_eq_cons_iff.mp hcontents
    obtain ⟨s, ts, rfl, hs, hcontents⟩ := List.map_eq_cons_iff.mp hcontents
    obtain rfl := List.map_eq_nil_iff.mp hcontents
    have hleft := @spells_member x f 1 false us (by decide) hx hmember fun t ht => hline t (by simp [ht])
    have hstring : Spells 1 false (.unary (.string x)) [s] :=
      .bare (.primary (.atom (by rw [Token.atom?, hs])))
    exact spells_binary hleft (by rw [Token.operator?, hq]; rfl) (.inr (hline q (by simp))) hstring
  · rintro w ⟨⟩
    exact hx.not_leading
  · have hmember := Tree.height_member_name x f
    have hstring : (Tree.string x).height ≤ 2 := Tree.height_le_succ (List.forall_mem_nil _)
    have hrun : (Tree.run (.member (.name x) f) [(.equal, .string x)]).height ≤ 3 :=
      Tree.height_le_succ (List.forall_mem_cons.mpr ⟨hmember, List.forall_mem_singleton.mpr hstring⟩)
    exact hrun.trans (by decide)

/-! ### The clock -/

/-- Before the first look at the clock no time matters. -/
theorem Engine.alarmWithin?_ne_time {n : Nat} (h : n < clockInterval) (d : Duration) :
    e.alarmWithin? 0 n ≠ some (.time d) := by
  induction n with
  | zero =>
    intro h
    cases h
  | succ n ih =>
    have hlook : ¬ ((0 + n + 1) % clockInterval = 0 ∧
        e.limits.timeout.nanos ≤ (e.stopwatch (0 + n + 1)).nanos) := by
      rw [Nat.zero_add, Nat.mod_eq_of_lt h]
      exact fun hlook => Nat.succ_ne_zero n hlook.1
    have halarm : e.alarm? (0 + n + 1) ≠ some (.time d) := by
      rw [alarm?, if_neg hlook]
      split <;> simp
    rw [alarmWithin?]
    cases hl : e.alarmWithin? 0 n with
    | none => exact halarm
    | some l =>
      have hprefix := ih (Nat.lt_of_succ_lt h)
      rwa [hl] at hprefix

theorem not_timedOut {α : Type} {o : Outcome α} (h : ¬ AtLimit o) : timedOut o = false := by
  rw [← Bool.not_eq_true]
  intro htime
  unfold timedOut at htime
  split at htime
  · rename_i e
    unfold EvalError.isTimeout at htime
    split at htime
    · exact h ⟨_, rfl⟩
    · cases htime
  · cases htime

/-- A run whose steps do not meet the timeout first is not ended by the clock. -/
theorem timedOut_of_alarm {p : Program} (hp : p.Bounded) {limits : Limits} {stopwatch : Stopwatch}
    (h : ∀ n ≤ p.nodes, ∀ d, (Engine.mk limits stopwatch).alarmWithin? 0 n ≠ some (.time d))
    (bindings : Dictionary Value) : timedOut (p.run bindings limits stopwatch) = false := by
  by_cases hrange : limits.timeout.seconds < clockRange
  · obtain ⟨n, hn, o, ho, htakes⟩ := runStatements_affordable ⟨[], bindings, .standard, .still⟩ none hp
    have htime := h n hn
    rw [Program.run_of_takes htakes stopwatch hrange]
    cases hl : (Engine.mk limits stopwatch).alarmWithin? 0 n with
    | none => exact not_timedOut ho
    | some l =>
      cases l with
      | time d => exact absurd hl (htime d)
      | steps | depth => rfl
  · rw [Program.run, if_pos (Nat.not_lt.mp hrange)]
    rfl

/-- **Short scripts.** No clock ends a program of few nodes. -/
theorem timedOut_of_short {p : Program} (hp : p.Bounded) (hshort : p.nodes < clockInterval)
    (bindings : Dictionary Value) (limits : Limits) (stopwatch : Stopwatch) :
    timedOut (p.run bindings limits stopwatch) = false :=
  timedOut_of_alarm hp (fun _ hn => Engine.alarmWithin?_ne_time (Nat.lt_of_le_of_lt hn hshort)) bindings

/-- A clock that shows less than the timeout ends no program. -/
theorem timedOut_of_time {p : Program} (hp : p.Bounded) {limits : Limits} {stopwatch : Stopwatch}
    (h : ∀ step, (stopwatch step).nanos < limits.timeout.nanos) (bindings : Dictionary Value) :
    timedOut (p.run bindings limits stopwatch) = false := by
  refine timedOut_of_alarm hp (fun n _ d => ?_) bindings
  rw [Engine.alarmWithin?_of_time h]
  split <;> simp

/-! ### Running -/

/-- Whether an engine has steps for `n` nodes and a timeout that its clock can tell. -/
structure Engine.Affords (e : Engine) (n : Nat) : Prop where
  steps : n ≤ e.limits.maxSteps
  range : e.limits.timeout.seconds < clockRange

theorem Engine.Affords.mono {m n : Nat} (h : e.Affords n) (hle : m ≤ n) : e.Affords m :=
  ⟨hle.trans h.steps, h.range⟩

theorem Engine.affords_standard (stopwatch : Stopwatch) {n : Nat} (h : n ≤ Limits.standard.maxSteps) :
    (Engine.mk .standard stopwatch).Affords n :=
  ⟨h, (by decide : Limits.standard.timeout.seconds < clockRange)⟩

/-- A run within the range of the clock is that of the statements. -/
theorem Program.run_eq_result (p : Program) {limits : Limits} {stopwatch : Stopwatch}
    (hrange : limits.timeout.seconds < clockRange) :
    p.run bindings limits stopwatch =
      Change.result (runStatements ⟨[], bindings, limits, stopwatch⟩ none p.statements ⟨0, 0⟩) := by
  rw [run, if_neg (Nat.not_le.mpr hrange)]
  cases runStatements ⟨[], bindings, limits, stopwatch⟩ none p.statements ⟨0, 0⟩ <;> rfl

/-- A script of one expression that is ended neither by the limit of steps nor by the clock
has the value of the expression. -/
theorem Program.run_yield (hheight : t.height ≤ maxHeight) (h : e.Affords t.nodes)
    (htime : timedOut (t.program.run bindings e.limits e.stopwatch) = false) :
    t.program.run bindings e.limits e.stopwatch = t.nest.eval ⟨[], bindings, e.limits, e.stopwatch⟩ := by
  obtain ⟨n, hn, o, ho, htakes⟩ :=
    runStatements_affordable ⟨[], bindings, .standard, .still⟩ none (Tree.bounded_program hheight)
  have hrun := run_of_takes htakes e.stopwatch h.range
  have halarm : e.alarmWithin? 0 n = none := by
    have hsteps : n ≤ e.limits.maxSteps := hn.trans h.steps
    rw [Engine.alarmWithin?_of_not_time fun d hd => ?_, if_neg (Nat.not_lt.mpr hsteps)]
    rw [hrun, hd] at htime
    cases htime
  rw [halarm] at hrun
  have hcomputes : Computes (runStatements ⟨[], bindings, e.limits, e.stopwatch⟩ none t.program.statements)
      (t.nest.eval ⟨[], bindings, e.limits, e.stopwatch⟩ >>= pure) :=
    t.eval_computes.bind fun v => computes_pure v
  rcases hcomputes ⟨0, 0⟩ with hlimit | hvalue
  · rw [← run_eq_result _ h.range, hrun] at hlimit
    exact absurd hlimit ho
  · rw [run_eq_result _ h.range, hvalue, bind_pure]

/-- Compiles and runs a source. -/
def Engine.run (e : Engine) (source : String) (bindings : Dictionary Value) : Outcome Value :=
  match compile source with
  | .error d => fail d
  | .ok p => p.run bindings e.limits e.stopwatch

/-- A script of one short expression has its value. -/
theorem Engine.run_of_compile (hcompile : compile source = .ok t.program) (h : e.Affords t.nodes)
    (hshort : t.nodes < clockInterval) (bindings : Dictionary Value) :
    e.run source bindings = t.nest.eval ⟨[], bindings, e.limits, e.stopwatch⟩ := by
  have hbounded := bounded_of_compile hcompile
  have htime := timedOut_of_short hbounded hshort bindings e.limits e.stopwatch
  rw [run, hcompile]
  exact Program.run_yield (hbounded _ (List.mem_singleton_self _)) h htime

/-- A call of a builtin. -/
theorem Nested.eval_call {c : Context} {callee : Nested} {arguments : List Nested} {b : Builtin}
    {vs : List Value} (hcallee : callee.eval c = .ok (.builtin b))
    (harguments : Nested.evalItems c arguments = .ok vs) : (Nested.call callee arguments).eval c = b.call vs := by
  rw [Nested.eval, hcallee]
  show Nested.evalItems c arguments >>= _ = _
  rw [harguments]
  rfl

/-- A number is only accepted when it is finite. -/
theorem Engine.evaluate_of_number {x : Float} (h : e.run source bindings = .ok (.number x)) :
    e.evaluate source bindings = if x.isFinite then .ok x else fail (.notFinite (.number x)) := by
  unfold run at h
  unfold evaluate Expr.evaluate
  cases hp : compile source with
  | error d =>
    rw [hp] at h
    cases h
  | ok p =>
    rw [hp] at h
    dsimp only at h ⊢
    rw [h]

end PoolScaling.Expr
