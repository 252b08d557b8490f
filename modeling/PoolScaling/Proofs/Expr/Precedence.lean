import PoolScaling.Proofs.Expr.Completeness
import PoolScaling.Proofs.Expr.Grouping
import PoolScaling.Proofs.Expr.Nesting

/-! Flat runs and the conventional precedence of operators.

The parser puts the operators along the left edge of the conventional grouping into
one run, whatever their levels, and parses what stands right of each as a run of its
own. So the levels along a run never rise, and folding the runs gives the grouping
back (`binary_conventional`). -/
namespace PoolScaling.Expr

namespace Grouping

/-- The nested form of a grouping of trees. -/
def nest : Grouping Tree → Nested
  | leaf t => t.nest
  | node op left right => .binary op left.nest right.nest

/-- The first operand and the run that the parser makes of a grouping. -/
def run : Grouping Tree → List (BinaryOp × Tree)
  | leaf _ => []
  | node op left right => left.run ++ [(op, .ofRun right.first right.run)]

theorem length_run (g : Grouping Tree) : g.run.length + 1 = g.operands := by
  induction g with
  | leaf t => rfl
  | node op left right ihleft _ => rw [run, List.length_append, List.length_singleton, ihleft, operands]

end Grouping

/-- The nested form of a run of operators. -/
theorem Tree.nest_ofRun (first : Tree) (rest : List (BinaryOp × Tree)) :
    (Tree.ofRun first rest).nest = Tree.nestRun first.nest rest := by
  cases rest with
  | nil => rfl
  | cons p rest => rfl

/-- Folding the run of a grouping gives the grouping back. -/
theorem Grouping.nestRun_run (g : Grouping Tree) : Tree.nestRun g.first.nest g.run = g.nest := by
  induction g with
  | leaf t => rfl
  | node op left right ihleft ihright =>
    rw [first, run, Tree.nestRun_append, ihleft, Tree.nestRun, Tree.nest_ofRun, ihright]
    rfl

/-- Tokens that spell operands with operators between them. -/
inductive Chain (n : Nat) (i : Bool) : Tree → List (BinaryOp × Tree) → List Token → Prop
  | single {e ts} : Spells n i (.unary e) ts → Chain n i e [] ts
  | cons {e e' rest ts us} {t : Token} {op : BinaryOp} : Spells n i (.unary e) ts →
      t.operator? = some op → t.joins i → Chain n i e' rest us →
      Chain n i e ((op, e') :: rest) (ts ++ t :: us)

namespace Chain

variable {n : Nat} {i : Bool} {e e' : Tree} {rest rest' : List (BinaryOp × Tree)} {op : BinaryOp}
  {ts : List Token}

/-- At each of its operators a chain falls into two. -/
theorem split (h : Chain n i e (rest ++ (op, e') :: rest') ts) :
    ∃ us t vs, ts = us ++ t :: vs ∧ t.operator? = some op ∧ t.joins i ∧
      Chain n i e rest us ∧ Chain n i e' rest' vs := by
  induction rest generalizing e ts with
  | nil =>
    obtain - | ⟨he, hop, hjoins, hrest⟩ := h
    exact ⟨_, _, _, rfl, hop, hjoins, .single he, hrest⟩
  | cons p rest ih =>
    obtain - | ⟨he, hop, hjoins, hrest⟩ := h
    obtain ⟨us, t, vs, rfl, hop', hjoins', hleft, hright⟩ := ih hrest
    refine ⟨_ ++ _ :: us, t, vs, ?_, hop', hjoins', .cons he hop hjoins hleft, hright⟩
    rw [List.append_assoc, List.cons_append]

/-- A chain spells the run of its conventional grouping. -/
theorem spells {g : Grouping Tree} {l : Nat} (hg : g.Binds l) (hl : l ≤ BinaryOp.levels)
    (hruns : g.RunsWithin maxOperands) (h : Chain n i g.first g.rest ts) :
    Spells n i (.operation l g.first g.run) ts := by
  induction g generalizing l ts with
  | leaf e =>
    obtain he | _ := h
    exact (Spells.operand he).loosen (Nat.le_refl _) hl
  | node op left right ihleft ihright =>
    obtain ⟨hle, hleft, hright⟩ := hg
    obtain ⟨hshort, hruns, hruns'⟩ := hruns
    obtain ⟨us, t, vs, rfl, hop, hjoins, hchain, hchain'⟩ := h.split
    have hlevel := op.level_lt_levels
    have hrun := ihleft hleft (Nat.le_of_lt hlevel) hruns hchain
    have hrun' := ihright hright hlevel hruns' hchain'
    rw [← left.length_run] at hshort
    exact (hrun.apply hop hjoins hrun' hshort).loosen (Nat.le_of_lt hlevel) hle

end Chain

namespace Parser

/-- **Flat runs mean what conventional precedence means.** A chain of operands and operators
that nothing continues is parsed to a tree whose nested form is the conventional grouping,
and unless its evaluation reaches a limit, it has the value or the first failure that the
grouping has by ordinary evaluation. -/
theorem binary_conventional {n : Nat} {i : Bool} {e : Tree} {rest : List (BinaryOp × Tree)}
    {ts : List Token} {s : Cursor} (h : Chain n i e rest ts) (hn : n ≤ maxNesting)
    (hruns : (Grouping.conventional e rest).RunsWithin maxOperands) (hs : Stands n i ts s)
    (hcloses : s.Closes 0) :
    ∃ t, binary (levelAt n).unary BinaryOp.levels 0 (s.before ts) = .ok t s ∧
      t.nest = (Grouping.conventional e rest).nest ∧
      ∀ c m, ¬ Eval.AtLimit (Change.result (t.eval c m)) →
        Change.result (t.eval c m) = (Grouping.conventional e rest).nest.eval c := by
  have hbinds := Grouping.conventional_binds e rest
  have hchain : Chain n i (Grouping.conventional e rest).first (Grouping.conventional e rest).rest ts := by
    rw [Grouping.first_conventional, Grouping.rest_conventional]
    exact h
  generalize Grouping.conventional e rest = g at hruns hbinds hchain ⊢
  have hspells := hchain.spells hbinds (Nat.zero_le _) hruns
  have hrun := complete hspells hn s hs (hcloses.mono (Nat.zero_le 1))
  have hnest : (Tree.ofRun g.first g.run).nest = g.nest := by rw [Tree.nest_ofRun, g.nestRun_run]
  refine ⟨_, hrun.binary hcloses.stops BinaryOp.levels (Nat.le_refl _), hnest, fun c m hlimit => ?_⟩
  rw [← hnest]
  exact (Tree.eval_computes _ m).resolve_left hlimit

/-- The operators of `a * b + c || d` are of three levels. -/
theorem binary_three_levels :
    ∃ t, binary (levelAt 1).unary BinaryOp.levels 0
        ⟨[⟨.name "a", 0, false⟩, ⟨.mark .star, 2, false⟩, ⟨.name "b", 4, false⟩, ⟨.mark .plus, 6, false⟩,
          ⟨.name "c", 8, false⟩, ⟨.mark .either, 10, false⟩, ⟨.name "d", 13, false⟩], 0, 1, 7, 14⟩ =
        .ok t ⟨[], 0, 1, 7, 14⟩ ∧
      t.nest = .binary .either (.binary (.arithmetic .add)
        (.binary (.arithmetic .multiply) (.name "a") (.name "b")) (.name "c")) (.name "d") ∧
      ∀ c m, ¬ Eval.AtLimit (Change.result (t.eval c m)) → Change.result (t.eval c m) =
        Nested.eval c (.binary .either (.binary (.arithmetic .add)
          (.binary (.arithmetic .multiply) (.name "a") (.name "b")) (.name "c")) (.name "d")) := by
  have hname (x : String) (p : Nat) (hx : ofName x = .name x) :
      Spells 1 false (.unary (.name x)) [⟨.name x, p, false⟩] := by
    rw [← hx]
    exact .bare (.primary (.atom rfl))
  have hd := Chain.single (hname "d" 13 rfl)
  have hcd := Chain.cons (t := ⟨.mark .either, 10, false⟩) (hname "c" 8 rfl) rfl (.inr rfl) hd
  have hbcd := Chain.cons (t := ⟨.mark .plus, 6, false⟩) (hname "b" 4 rfl) rfl (.inr rfl) hcd
  have habcd := Chain.cons (t := ⟨.mark .star, 2, false⟩) (hname "a" 0 rfl) rfl (.inr rfl) hbcd
  have hcloses : Cursor.Closes ⟨[], 0, 1, 7, 14⟩ 0 := (Cursor.ends_of_continuation? rfl).toCloses
  exact binary_conventional habcd (by decide)
    ⟨by decide, ⟨by decide, ⟨by decide, trivial, trivial⟩, trivial⟩, trivial⟩ ⟨rfl, rfl, by decide⟩ hcloses

end Parser

end PoolScaling.Expr
