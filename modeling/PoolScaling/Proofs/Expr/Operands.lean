import Mathlib.Data.List.Induction
import PoolScaling.Proofs.Expr.Precedence

/-! The greatest number of operands.

Operands of one level in a row are one run as long as there are at most `maxOperands` of
them (`Chain.spells_level`). The operator that would follow a full run is reported where it
stands, by every parser around the run and so for the whole source (`compile_overfull`). -/
namespace PoolScaling.Expr

/-- A chain of one level is a run. -/
theorem Chain.spells_level {n l : Nat} {i : Bool} {e : Tree} {rest : List (BinaryOp × Tree)} {ts : List Token}
    (h : Chain n i e rest ts) (hl : l ≤ BinaryOp.levels) (hlevel : ∀ p ∈ rest, p.1.level = l)
    (hshort : rest.length < maxOperands) : Spells n i (.operation l e rest) ts := by
  induction rest using List.reverseRecOn generalizing ts with
  | nil =>
    obtain he | _ := h
    exact (Spells.operand he).loosen (Nat.le_refl _) hl
  | append_singleton rest p ih =>
    obtain ⟨op, e'⟩ := p
    obtain ⟨us, t, vs, rfl, hop, hjoins, hleft, hright⟩ := h.split
    obtain rfl : op.level = l := hlevel (op, e') (by simp)
    obtain he' | _ := hright
    rw [List.length_append, List.length_singleton] at hshort
    have hrun := ih hleft (fun p hp => hlevel p (List.mem_append_left _ hp)) (Nat.lt_of_succ_lt hshort)
    have hoperand := (Spells.operand he').loosen (Nat.le_refl _) (Nat.succ_le_of_lt op.level_lt_levels)
    exact hrun.apply hop hjoins hoperand hshort

namespace Parser

variable {operand : Parser Tree} {l least levels : Nat} {f : Tree} {r : List (BinaryOp × Tree)} {s₀ s : Cursor}
  {op : BinaryOp}

/-- The defect of one operand too many. -/
def overfull (position : Nat) : Defect := ⟨position, .tooManyOperands maxOperands⟩

/-- A full run cannot go on. -/
theorem Runs.overfull (h : Runs operand l f r s₀ s) (hfull : r.length + 1 = maxOperands)
    (hop : s.operator? = some op) (hlevel : least ≤ op.level) (hle : least ≤ l)
    (hlevels : BinaryOp.levels ≤ levels + least + 1) :
    Parser.binary operand (levels + 1) least s₀ = .error (Parser.overfull s.position) s := by
  obtain ⟨u, hu, hloop⟩ := h.loop
  have hround : maxOperands - 1 = 0 + r.length := by omega
  have hzero : operands (fun l => Parser.binary operand levels (l + 1)) least 0 s =
      .error (Parser.overfull s.position) s := operands_zero op hop hlevel
  have hoperands := hloop levels least 0 hle hlevels
  rw [bind_error hzero, ← hround] at hoperands
  rw [Parser.binary, bind_ok hu, bind_error hoperands]

theorem nested_error {α : Type} {p : Parser α} {d : Defect} {u : Cursor} (hlt : s.nesting < maxNesting)
    (h : p { s with nesting := s.nesting + 1 } = .error d u) :
    nested p s = .error d { u with nesting := u.nesting - 1 } := by
  rw [nested, bind_ok (enter_ok hlt), settingNesting, h]

variable {e : Tree} {rest : List (BinaryOp × Tree)} {ts us : List Token} {t : Token}

/-- The operator after a full run is reported by the parser of expressions. -/
theorem expression_overfull (h : Spells 1 false (.operation op.level e rest) ts)
    (hfull : rest.length + 1 = maxOperands) (hop : t.operator? = some op) (hline : t.newlineBefore = false)
    (hs : Stands 0 false (ts ++ [t]) s) :
    ∃ s', expression ((s.before [t]).before ts) = .error (overfull t.position) s' := by
  let u : Cursor := { s with nesting := s.nesting + 1 }
  have hcloses : (u.before [t]).Closes (op.level + 1) := Cursor.closes_before hop
  have hoperator : (u.before [t]).operator? = some op := Cursor.operator?_before hop (.inr hline)
  have hruns : Runs (levelAt 1).unary op.level e rest ((u.before [t]).before ts) (u.before [t]) :=
    complete h (by decide) (u.before [t]) hs.before.deeper hcloses
  have hbinary : binary (levelAt 1).unary BinaryOp.levels 0 ((u.before [t]).before ts) =
      .error (overfull t.position) (u.before [t]) :=
    hruns.overfull hfull hoperator (Nat.zero_le _) (Nat.zero_le _) (by decide)
  have hbody : (levelAt 1).body ((u.before [t]).before ts) = .error (overfull t.position) (u.before [t]) := by
    rw [body_eq (by decide), conditional, bind_error hbinary]
  have hexpression : expression = nested (levelAt 1).body := expression_eq (Nat.zero_le _)
  have hnesting : s.nesting < maxNesting := by
    rw [hs.nesting]
    decide
  rw [hexpression]
  exact ⟨_, nested_error (s := (s.before [t]).before ts) hnesting hbody⟩

theorem parse_overfull (h : Spells 1 false (.operation op.level e rest) ts)
    (hfull : rest.length + 1 = maxOperands) (hop : t.operator? = some op) (hline : t.newlineBefore = false)
    (hfirst : ∀ first ∈ ts.head?, ∀ w, first.content = .name w → w ∉ leadingWords) (us : List Token) (stop : Nat) :
    parse (ts ++ t :: us) stop = .error (overfull t.position) := by
  have hsentence : Sentence (.yield (.ofRun e rest)) ts :=
    .yield (.expression (by decide) (.plain (h.loosen (Nat.le_of_lt op.level_lt_levels) (Nat.zero_le _)))) hfirst
  obtain ⟨first, others, rfl, hseparator⟩ := hsentence.head
  let s : Cursor := ⟨us, 0, 0, ((first :: others) ++ t :: us).length, stop⟩
  have hs : Stands 0 false ((first :: others) ++ [t]) s := by
    refine ⟨rfl, rfl, Nat.le_of_eq ?_⟩
    show _ = ((first :: others) ++ t :: us).length
    rw [← List.length_append, List.append_assoc]
    rfl
  obtain ⟨s', hexpression⟩ := expression_overfull h hfull hop hline hs
  have hstatement : statement ((s.before [t]).before (first :: others)) = .error (overfull t.position) s' := by
    rw [statement_yield fun w hw => hfirst first rfl w (Cursor.name?_before.mp hw)]
    exact map_error hexpression
  have hstatements : statements (((first :: others) ++ t :: us).length + 1)
      ⟨(first :: others) ++ t :: us, 0, 0, ((first :: others) ++ t :: us).length, stop⟩ =
        .error (overfull t.position) s' := by
    have hdrop : ((first :: others) ++ t :: us).dropWhile isSeparator = (first :: others) ++ t :: us :=
      List.dropWhile_cons_of_neg (by rw [hseparator]; decide)
    rw [statements, modify_bind, get_bind, hdrop, if_neg (by simp)]
    show (statement >>= _) ((s.before [t]).before (first :: others)) = _
    rw [bind_error hstatement]
  rw [parse, hstatements]

end Parser

/-- **Too many operands.** A source that begins with a full run of operands, and goes on
with an operator of its level on the same line, does not compile. -/
theorem compile_overfull {source : String} {e : Tree} {op : BinaryOp} {rest : List (BinaryOp × Tree)}
    {ts us : List Token} {t : Token} (htokens : tokenize source = .ok (ts ++ t :: us))
    (h : Spells 1 false (.operation op.level e rest) ts) (hfull : rest.length + 1 = maxOperands)
    (hop : t.operator? = some op) (hline : t.newlineBefore = false)
    (hfirst : ∀ first ∈ ts.head?, ∀ w, first.content = .name w → w ∉ leadingWords) :
    compile source = .error (.malformed (Parser.overfull t.position)) := by
  unfold compile
  rw [htokens]
  dsimp only
  rw [Parser.parse_overfull h hfull hop hline hfirst]

end PoolScaling.Expr
