import PoolScaling.Proofs.Expr.Operands
import PoolScaling.Proofs.Expr.Single

/-! Sums of predictions.

A sum of the predictions of named records is one run, so its tree is no taller for having
more addends, and it is evaluated in a loop. It works for as many addends as a run may have
operands, and is refused beyond (`sum_of_predictions`). -/
namespace PoolScaling.Expr

variable {x : String} {xs : List String} {bindings : Dictionary Value} {value : String → Float}

/-- The predictions of named records added up. -/
def sumSource (xs : List String) : String := " + ".intercalate (xs.map fun x => x ++ ".prediction")

/-! ### Tokens -/

def sumContents (x : String) (xs : List String) : List Content :=
  memberContents x "prediction" ++ xs.flatMap fun y => .mark .plus :: memberContents y "prediction"

theorem lexes_sum (hx : isName x = true) (hxs : ∀ y ∈ xs, isName y = true) :
    Lexes (sumSource (x :: xs)).toList (sumContents x xs) := by
  have hprediction : isName "prediction" = true := by decide
  have hmember : ∀ z : String, z ++ "." ++ "prediction" = z ++ ".prediction" := fun z => String.append_assoc
  induction xs generalizing x with
  | nil =>
    have hlast : Lexes ((x ++ "." ++ "prediction").toList ++ []) (sumContents x []) :=
      Lexes.member hx hprediction nofun lexes_nil
    rwa [List.append_nil, hmember] at hlast
  | cons y ys ih =>
    obtain ⟨hy, hys⟩ := List.forall_mem_cons.mp hxs
    have hplus : Mark.leading? ('+' :: ' ' :: (sumSource (y :: ys)).toList) = some (['+'], .plus) := rfl
    have hrest := Lexes.space (Lexes.mark (by decide) (by decide) rfl hplus (Lexes.space (ih hy hys)))
    have hsum := Lexes.member hx hprediction (by rintro d ⟨⟩; decide) hrest
    have htext : (sumSource (x :: y :: ys)).toList =
        (x ++ "." ++ "prediction").toList ++ ' ' :: '+' :: ' ' :: (sumSource (y :: ys)).toList := by
      rw [sumSource, List.map_cons, List.map_cons, String.intercalate_cons_cons, ← hmember, String.toList_append,
        String.toList_append, List.append_assoc]
      rfl
    rw [htext]
    exact hsum

/-! ### Trees -/

/-- The prediction of a named record. -/
def Tree.prediction (x : String) : Tree := .member (.name x) "prediction"

def addends (xs : List String) : List (BinaryOp × Tree) := xs.map fun x => (.arithmetic .add, .prediction x)

theorem length_addends (xs : List String) : (addends xs).length = xs.length := List.length_map _

/-- The tree of a sum. -/
def Tree.sum (x : String) (xs : List String) : Tree := .ofRun (.prediction x) (addends xs)

theorem chain_sum {ts : List Token} (hx : IsReference x) (hxs : ∀ y ∈ xs, IsReference y)
    (hcontents : ts.map Token.content = sumContents x xs) (hline : ∀ t ∈ ts, t.newlineBefore = false) :
    Chain 1 false (.prediction x) (addends xs) ts := by
  induction xs generalizing x ts with
  | nil =>
    rw [sumContents, List.flatMap_nil, List.append_nil] at hcontents
    exact .single (spells_member (by decide) hx hcontents hline)
  | cons y ys ih =>
    obtain ⟨hy, hys⟩ := List.forall_mem_cons.mp hxs
    obtain ⟨us, ts, rfl, hmember, hcontents⟩ := List.map_eq_append_iff.mp
      (show ts.map Token.content = memberContents x "prediction" ++ (.mark .plus :: sumContents y ys) from hcontents)
    obtain ⟨t, vs, rfl, ht, hcontents⟩ := List.map_eq_cons_iff.mp hcontents
    have hadd : t.operator? = some (.arithmetic .add) := by
      rw [Token.operator?, ht]
      rfl
    have hleft : Spells 1 false (.unary (.prediction x)) us :=
      spells_member (by decide) hx hmember fun t ht => hline t (List.mem_append_left _ ht)
    have hright := ih hy hys hcontents fun t ht => hline t (List.mem_append_right _ (List.mem_cons_of_mem _ ht))
    exact .cons hleft hadd (.inr (hline t (by simp))) hright

theorem level_addends : ∀ p ∈ addends xs, p.1.level = BinaryOp.level (.arithmetic .add) := by
  intro p hp
  obtain ⟨y, -, rfl⟩ := List.mem_map.mp hp
  rfl

theorem height_sum (x : String) (xs : List String) : (Tree.sum x xs).height ≤ 3 := by
  have hprediction := fun y => Tree.height_member_name y "prediction"
  cases xs with
  | nil => exact (hprediction x).trans (by decide)
  | cons y ys =>
    refine Tree.height_le_succ (List.forall_mem_cons.mpr ⟨hprediction x, fun t ht => ?_⟩)
    obtain ⟨p, hp, rfl⟩ := List.mem_map.mp ht
    obtain ⟨z, -, rfl⟩ := List.mem_map.mp hp
    exact hprediction z

theorem nodes_addends (xs : List String) : Tree.nodesOfRun (addends xs) = 2 * xs.length := by
  induction xs with
  | nil => rfl
  | cons x xs ih =>
    show (1 + 1) + Tree.nodesOfRun (addends xs) = _
    rw [ih, List.length_cons]
    omega

theorem nodes_sum (x : String) (xs : List String) : (Tree.sum x xs).nodes ≤ 2 * (x :: xs).length + 1 := by
  cases xs with
  | nil => exact Nat.le_succ 2
  | cons y ys =>
    show 1 + (1 + 1) + Tree.nodesOfRun (addends (y :: ys)) ≤ _
    rw [nodes_addends]
    simp only [List.length_cons]
    omega

/-- Up to the greatest number of operands a sum compiles. -/
theorem compile_sum (hx : IsReference x) (hxs : ∀ y ∈ xs, IsReference y) (hlength : (x :: xs).length ≤ maxOperands) :
    compile (sumSource (x :: xs)) = .ok (Tree.sum x xs).program := by
  refine compile_expression (lexes_sum hx.isName fun y hy => (hxs y hy).isName) (fun ts hcontents hline => ?_) ?_
    ((height_sum x xs).trans (by decide))
  · have hlevel := BinaryOp.level_lt_levels (.arithmetic .add)
    have hrun := (chain_sum hx hxs hcontents hline).spells_level (Nat.le_of_lt hlevel) level_addends
      (by rw [length_addends]; exact hlength)
    exact .plain (hrun.loosen (Nat.le_of_lt hlevel) (Nat.zero_le _))
  · rintro w ⟨⟩
    exact hx.not_leading

/-- Beyond it a sum does not. -/
theorem compile_sum_overfull (hx : IsReference x) (hxs : ∀ y ∈ xs, IsReference y)
    (hlength : maxOperands < (x :: xs).length) :
    ∃ position, compile (sumSource (x :: xs)) = .error (.malformed (Parser.overfull position)) := by
  obtain ⟨ts, htokens, hcontents, hline⟩ := lexes_sum hx.isName (fun y hy => (hxs y hy).isName) 0
  have hchain := chain_sum hx hxs hcontents hline
  have hlong : maxOperands - 1 < (addends xs).length := by
    have hpos : 0 < maxOperands := by decide
    rw [length_addends]
    rw [List.length_cons] at hlength
    omega
  -- The chain falls into a full run and what follows it.
  have hsplit : addends xs = (addends xs).take (maxOperands - 1) ++
      (addends xs)[maxOperands - 1] :: (addends xs).drop (maxOperands - 1 + 1) := by
    rw [List.getElem_cons_drop, List.take_append_drop]
  have hcount : ((addends xs).take (maxOperands - 1)).length + 1 = maxOperands := by
    rw [List.length_take, Nat.min_eq_left (Nat.le_of_lt hlong)]
    decide
  rw [hsplit] at hchain
  obtain ⟨us, t, vs, rfl, hop, -, hfull, -⟩ := hchain.split
  have hlevel := level_addends _ (List.getElem_mem hlong)
  have hrun := hfull.spells_level (Nat.le_of_lt (BinaryOp.level_lt_levels (.arithmetic .add)))
    (fun p hp => level_addends p (List.mem_of_mem_take hp)) (Nat.lt_of_succ_le (Nat.le_of_eq hcount))
  rw [← hlevel] at hrun
  refine ⟨t.position, compile_overfull htokens hrun hcount hop (hline t (by simp)) fun first hfirst w hw => ?_⟩
  have hhead : ((us ++ t :: vs).map Token.content).head? = some first.content := by
    rw [List.head?_map, List.head?_append, Option.mem_def.mp hfirst]
    rfl
  rw [hcontents, hw] at hhead
  cases hhead
  exact hx.not_leading

/-! ### Values -/

/-- Whether a name is bound to a record with a prediction. -/
def Predicts (bindings : Dictionary Value) (x : String) (v : Float) : Prop :=
  ∃ fields, Dictionary.find? x bindings = some (.record fields) ∧
    Dictionary.find? "prediction" fields = some (.number v)

variable {limits : Limits} {stopwatch : Stopwatch}

theorem eval_prediction {v : Float} (h : Predicts bindings x v) :
    (Tree.prediction x).nest.eval ⟨[], bindings, limits, stopwatch⟩ = .ok (.number v) := by
  obtain ⟨fields, hbound, hfield⟩ := h
  have hresolve : Context.resolve ⟨[], bindings, limits, stopwatch⟩ x = .ok (.record fields) := by
    simp only [Context.resolve, Dictionary.find?, hbound]
  show Context.resolve _ x >>= _ = _
  rw [hresolve]
  show Value.member (.record fields) "prediction" = _
  rw [Value.member, hfield]

/-- A sum is evaluated from left to right. -/
theorem eval_addends {left : Nested} {v : Float} (hleft : left.eval ⟨[], bindings, limits, stopwatch⟩ = .ok (.number v))
    (hxs : ∀ y ∈ xs, Predicts bindings y (value y)) :
    (Tree.nestRun left (addends xs)).eval ⟨[], bindings, limits, stopwatch⟩ =
      .ok (.number ((xs.map value).foldl (· + ·) v)) := by
  induction xs generalizing left v with
  | nil => exact hleft
  | cons y ys ih =>
    obtain ⟨hy, hys⟩ := List.forall_mem_cons.mp hxs
    have hstep : (Nested.binary (.arithmetic .add) left (Tree.prediction y).nest).eval
        ⟨[], bindings, limits, stopwatch⟩ = .ok (.number (v + value y)) := by
      rw [Nested.eval, hleft]
      show Nested.eval _ (Tree.prediction y).nest >>= _ = _
      rw [eval_prediction hy]
      rfl
    exact ih hstep hys

theorem eval_sum (hx : Predicts bindings x (value x)) (hxs : ∀ y ∈ xs, Predicts bindings y (value y)) :
    (Tree.sum x xs).nest.eval ⟨[], bindings, limits, stopwatch⟩ =
      .ok (.number ((xs.map value).foldl (· + ·) (value x))) := by
  rw [Tree.sum, Tree.nest_ofRun]
  exact eval_addends (eval_prediction hx) hxs

/-- **Sums of predictions.** A sum of the predictions of any names that are looked up, on one
line, compiles to an expression of at most three levels if there are no more of them than a
run may have operands. Where the names are bound to records with such numbers it has their
sum from left to right as its value under the standard limits, unless the clock ends it. If
there are more it is refused for its syntax. -/
theorem sum_of_predictions (hx : IsReference x) (hxs : ∀ y ∈ xs, IsReference y) :
    ((x :: xs).length ≤ 10000 →
      ∃ t : Tree, compile (sumSource (x :: xs)) = .ok ⟨[.yield t]⟩ ∧ t.height ≤ 3 ∧
        ∀ (bindings : Dictionary Value) (value : String → Float) (stopwatch : Stopwatch),
          (∀ y ∈ x :: xs, Predicts bindings y (value y)) →
          timedOut (Program.run ⟨[.yield t]⟩ bindings .standard stopwatch) = false →
          Program.run ⟨[.yield t]⟩ bindings .standard stopwatch =
            .ok (.number ((xs.map value).foldl (· + ·) (value x)))) ∧
    (10000 < (x :: xs).length →
      ∃ position, compile (sumSource (x :: xs)) = .error (.malformed ⟨position, .tooManyOperands 10000⟩)) := by
  refine ⟨fun hlength => ⟨Tree.sum x xs, compile_sum hx hxs hlength, height_sum x xs, ?_⟩, compile_sum_overfull hx hxs⟩
  intro bindings value stopwatch hbound htime
  obtain ⟨hbound, hbounds⟩ := List.forall_mem_cons.mp hbound
  have hnodes : (Tree.sum x xs).nodes ≤ Limits.standard.maxSteps := by
    refine (nodes_sum x xs).trans ?_
    show 2 * (x :: xs).length + 1 ≤ 100000
    omega
  have haffords := Engine.affords_standard stopwatch hnodes
  exact (Program.run_yield ((height_sum x xs).trans (by decide)) haffords htime).trans (eval_sum hbound hbounds)

/-- The longest sum of one name, and the next. -/
theorem sum_of_predictions_at_bound :
    let bindings : Dictionary Value := [("a", .record [("prediction", .number 0.1)])]
    (∃ t : Tree, compile (sumSource (List.replicate 10000 "a")) = .ok ⟨[.yield t]⟩ ∧ t.height ≤ 3 ∧
      Program.run ⟨[.yield t]⟩ bindings .standard .still =
        .ok (.number (((List.replicate 9999 "a").map fun _ => 0.1).foldl (· + ·) 0.1))) ∧
    ∃ position, compile (sumSource (List.replicate 10001 "a")) =
      .error (.malformed ⟨position, .tooManyOperands 10000⟩) := by
  intro bindings
  have ha : IsReference "a" := ⟨by decide, by decide⟩
  have hall : ∀ n, ∀ y ∈ List.replicate n "a", IsReference y := fun n y hy => List.eq_of_mem_replicate hy ▸ ha
  have hlength : ∀ n, ("a" :: List.replicate n "a").length = n + 1 := fun n => by
    rw [List.length_cons, List.length_replicate]
  obtain ⟨t, hcompile, hheight, hvalue⟩ := (sum_of_predictions ha (hall 9999)).1 (Nat.le_of_eq (hlength 9999))
  have hbound : ∀ y ∈ "a" :: List.replicate 9999 "a", Predicts bindings y 0.1 := fun y hy => by
    rw [List.eq_of_mem_replicate (n := 10000) hy]
    exact ⟨_, rfl, rfl⟩
  have htime : timedOut (Program.run ⟨[.yield t]⟩ bindings .standard .still) = false :=
    timedOut_of_time (Tree.bounded_program (hheight.trans (by decide)))
      (fun _ => (by decide : Duration.zero.nanos < Limits.standard.timeout.nanos)) bindings
  obtain ⟨position, hrefused⟩ := (sum_of_predictions ha (hall 10000)).2 (by rw [hlength]; decide)
  exact ⟨⟨t, hcompile, hheight, hvalue bindings (fun _ => 0.1) .still hbound htime⟩, position, hrefused⟩

end PoolScaling.Expr
