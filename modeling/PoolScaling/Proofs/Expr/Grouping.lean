import Mathlib.Data.List.Basic
import PoolScaling.Expr.Parser

/-! How operators group operands.

A grouping puts a sequence of operands under binary operators. By the conventional
one, operators of a tighter level group first, and those of one level from left to
right: what stands left of an operator binds at least as tightly as the operator,
and what stands right of it binds more tightly (`Binds`). Every sequence has exactly
one such grouping (`existsUnique_binds`). -/
namespace PoolScaling.Expr

/-- Operands under binary operators. -/
inductive Grouping (α : Type) where
  | leaf (a : α)
  | node (op : BinaryOp) (left right : Grouping α)

namespace Grouping

variable {α : Type} {op : BinaryOp} {a : α} {l l' : Nat} {g left right : Grouping α}

/-! ### The operands in their order -/

/-- The leftmost operand. -/
def first : Grouping α → α
  | leaf a => a
  | node _ left _ => left.first

/-- The operators from left to right, each with the operand after it. -/
def rest : Grouping α → List (BinaryOp × α)
  | leaf _ => []
  | node op left right => left.rest ++ (op, right.first) :: right.rest

/-! ### The conventional grouping -/

/-- Whether operators group by their levels, with those at the top of level `l` or tighter. -/
def Binds : Nat → Grouping α → Prop
  | _, leaf _ => True
  | l, node op left right => l ≤ op.level ∧ left.Binds op.level ∧ right.Binds (op.level + 1)

/-- One more operator and operand at the right end. The operator takes what is there as its
left side, down to the first operator that is looser. -/
def insert (op : BinaryOp) (a : α) : Grouping α → Grouping α
  | leaf b => node op (leaf b) (leaf a)
  | node op' left right =>
    if op'.level < op.level then node op' left (right.insert op a)
    else node op (node op' left right) (leaf a)

/-- A grouping with more operators and operands at its right end. -/
def extend (g : Grouping α) (rest : List (BinaryOp × α)) : Grouping α :=
  rest.foldl (fun g p => g.insert p.1 p.2) g

/-- The conventional grouping of an operand and of operators with operands after it. -/
def conventional (a : α) (rest : List (BinaryOp × α)) : Grouping α := (leaf a).extend rest

theorem extend_append (xs ys : List (BinaryOp × α)) : g.extend (xs ++ ys) = (g.extend xs).extend ys :=
  List.foldl_append

theorem Binds.mono (h : g.Binds l) (hle : l' ≤ l) : g.Binds l' := by
  cases g with
  | leaf a => exact trivial
  | node op left right => exact ⟨Nat.le_trans hle h.1, h.2⟩

theorem Binds.insert (h : g.Binds l) (hle : l ≤ op.level) : (g.insert op a).Binds l := by
  induction g generalizing l with
  | leaf b => exact ⟨hle, trivial, trivial⟩
  | node op' left right _ ih =>
    obtain ⟨htop, hleft, hright⟩ := h
    rw [Grouping.insert]
    split
    · rename_i hlooser
      exact ⟨htop, hleft, ih hright hlooser⟩
    · rename_i htighter
      exact ⟨hle, ⟨Nat.not_lt.mp htighter, hleft, hright⟩, trivial⟩

theorem Binds.extend {rest : List (BinaryOp × α)} (h : g.Binds 0) : (g.extend rest).Binds 0 := by
  induction rest generalizing g with
  | nil => exact h
  | cons p rest ih => exact ih (h.insert (Nat.zero_le _))

theorem conventional_binds (a : α) (rest : List (BinaryOp × α)) : (conventional a rest).Binds 0 :=
  Binds.extend trivial

theorem first_insert : (g.insert op a).first = g.first := by
  cases g with
  | leaf b => rfl
  | node op' left right =>
    rw [insert]
    split <;> rfl

theorem rest_insert : (g.insert op a).rest = g.rest ++ [(op, a)] := by
  induction g with
  | leaf b => rfl
  | node op' left right _ ih =>
    rw [insert]
    split
    · rw [rest, ih, first_insert, rest, List.append_assoc, List.cons_append]
    · rfl

theorem first_extend {rest : List (BinaryOp × α)} : (g.extend rest).first = g.first := by
  induction rest generalizing g with
  | nil => rfl
  | cons p rest ih => exact ih.trans first_insert

theorem rest_extend {rest : List (BinaryOp × α)} : (g.extend rest).rest = g.rest ++ rest := by
  induction rest generalizing g with
  | nil => exact (List.append_nil _).symm
  | cons p rest ih =>
    refine ih.trans ?_
    rw [rest_insert, List.append_assoc]
    rfl

theorem first_conventional (a : α) (rest : List (BinaryOp × α)) : (conventional a rest).first = a :=
  first_extend

theorem rest_conventional (a : α) (rest : List (BinaryOp × α)) : (conventional a rest).rest = rest :=
  rest_extend

/-! ### No other grouping is like it -/

theorem Binds.le_level (h : g.Binds l) : ∀ p ∈ g.rest, l ≤ p.1.level := by
  induction g generalizing l with
  | leaf a => exact List.forall_mem_nil _
  | node op left right ihleft ihright =>
    obtain ⟨htop, hleft, hright⟩ := h
    intro p hp
    rcases List.mem_append.mp hp with hp | hp
    · exact Nat.le_trans htop (ihleft hleft p hp)
    · rcases List.mem_cons.mp hp with rfl | hp
      · exact htop
      · exact Nat.le_trans (Nat.le_succ_of_le htop) (ihright hright p hp)

/-- A looser operator takes all of a grouping as its left side. -/
theorem Binds.insert_eq (h : g.Binds op.level) : g.insert op a = node op g (leaf a) := by
  cases g with
  | leaf b => rfl
  | node op' left right => rw [Grouping.insert, if_neg (Nat.not_lt.mpr h.1)]

/-- Tighter operators group on the right side of an operator. -/
theorem extend_node {rest : List (BinaryOp × α)} (h : ∀ p ∈ rest, op.level < p.1.level) :
    (node op left right).extend rest = node op left (right.extend rest) := by
  induction rest generalizing right with
  | nil => rfl
  | cons p rest ih =>
    obtain ⟨hp, hrest⟩ := List.forall_mem_cons.mp h
    show ((node op left right).insert p.1 p.2).extend rest = _
    rw [insert, if_pos hp]
    exact ih hrest

theorem Binds.eq_conventional (h : g.Binds l) : conventional g.first g.rest = g := by
  induction g generalizing l with
  | leaf a => rfl
  | node op left right ihleft ihright =>
    obtain ⟨-, hleft, hright⟩ := h
    -- `op` takes all of the left side, and everything after it is tighter.
    calc conventional left.first (left.rest ++ (op, right.first) :: right.rest)
      _ = (left.insert op right.first).extend right.rest := by
        rw [conventional, extend_append, ← conventional, ihleft hleft]
        rfl
      _ = node op left (conventional right.first right.rest) := by
        rw [hleft.insert_eq, extend_node hright.le_level, conventional]
      _ = node op left right := by rw [ihright hright]

/-- **One conventional grouping.** Among the groupings of a sequence of operands just one
puts operators under each other by their levels. -/
theorem existsUnique_binds (a : α) (rest : List (BinaryOp × α)) :
    ∃! g : Grouping α, g.first = a ∧ g.rest = rest ∧ g.Binds 0 := by
  refine ⟨conventional a rest, ⟨first_conventional a rest, rest_conventional a rest,
    conventional_binds a rest⟩, ?_⟩
  intro g hg
  obtain ⟨rfl, rfl, hg⟩ := hg
  exact hg.eq_conventional.symm

/-! ### Runs -/

/-- How many operands stand along the left edge, as the parser collects them in one run. -/
def operands : Grouping α → Nat
  | leaf _ => 1
  | node _ left _ => left.operands + 1

/-- Whether no run of a grouping has more than `n` operands. -/
def RunsWithin (n : Nat) : Grouping α → Prop
  | leaf _ => True
  | node _ left right => left.operands + 1 ≤ n ∧ left.RunsWithin n ∧ right.RunsWithin n

end Grouping

end PoolScaling.Expr
