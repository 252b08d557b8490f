import PoolScaling.Expr.Error

/-! Expression trees.

A tree is what a source means before it is run. Binary operators of a chain such
as `a - b + c` are kept as one run: a first operand and a list of operators with
their right operands, to be applied from left to right.

`height` walks a tree with an explicit list of the subtrees that are still to be
seen, so that it needs no more than that list however tall the tree is. -/
namespace PoolScaling.Expr

inductive UnaryOp where
  | negate | not
  deriving Repr, DecidableEq

inductive BinaryOp where
  | either | both | equal | unequal | arithmetic (op : Arithmetic)
  deriving Repr, DecidableEq

inductive Tree where
  | number (n : Float)
  | string (s : String)
  | bool (b : Bool)
  | null
  | name (s : String)
  | array (items : List Tree)
  /-- Fields in the order of the source; names may repeat. -/
  | record (fields : List (String × Tree))
  | unary (op : UnaryOp) (operand : Tree)
  | run (first : Tree) (rest : List (BinaryOp × Tree))
  | conditional (condition yes no : Tree)
  | member (target : Tree) (field : String)
  | index (target index : Tree)
  | call (callee : Tree) (arguments : List Tree)
  deriving Inhabited

inductive Statement where
  /-- Gives a name to a value for the statements after it. -/
  | define (name : String) (value : Tree)
  | yield (value : Tree)
  /-- Ends the script with a value. -/
  | answer (value : Tree)

def Statement.tree : Statement → Tree
  | define _ t | yield t | answer t => t

/-- A compiled script, ready to run any number of times. -/
structure Program where
  statements : List Statement

namespace Tree

/-- The direct subtrees. -/
def children : Tree → List Tree
  | number _ | string _ | bool _ | null | name _ => []
  | array items => items
  | record fields => fields.map Prod.snd
  | unary _ operand => [operand]
  | run first rest => first :: rest.map Prod.snd
  | conditional condition yes no => [condition, yes, no]
  | member target _ => [target]
  | index target i => [target, i]
  | call callee arguments => callee :: arguments

mutual

/-- The number of nodes. -/
def nodes : Tree → Nat
  | number _ | string _ | bool _ | null | name _ => 1
  | array items => 1 + nodesOfItems items
  | record fields => 1 + nodesOfFields fields
  | unary _ operand => 1 + nodes operand
  | run first rest => 1 + nodes first + nodesOfRun rest
  | conditional condition yes no => 1 + nodes condition + nodes yes + nodes no
  | member target _ => 1 + nodes target
  | index target i => 1 + nodes target + nodes i
  | call callee arguments => 1 + nodes callee + nodesOfItems arguments

def nodesOfItems : List Tree → Nat
  | [] => 0
  | t :: ts => nodes t + nodesOfItems ts

def nodesOfFields : List (String × Tree) → Nat
  | [] => 0
  | (_, t) :: ts => nodes t + nodesOfFields ts

def nodesOfRun : List (BinaryOp × Tree) → Nat
  | [] => 0
  | (_, t) :: ts => nodes t + nodesOfRun ts

end

theorem nodesOfItems_append (ts us : List Tree) :
    nodesOfItems (ts ++ us) = nodesOfItems ts + nodesOfItems us := by
  induction ts with
  | nil => simp [nodesOfItems]
  | cons t ts ih => simp [nodesOfItems, ih, Nat.add_assoc]

theorem nodesOfFields_eq (fields : List (String × Tree)) :
    nodesOfFields fields = nodesOfItems (fields.map Prod.snd) := by
  induction fields with
  | nil => rfl
  | cons field fields ih => simp [nodesOfFields, nodesOfItems, ih]

theorem nodesOfRun_eq (rest : List (BinaryOp × Tree)) :
    nodesOfRun rest = nodesOfItems (rest.map Prod.snd) := by
  induction rest with
  | nil => rfl
  | cons operand rest ih => simp [nodesOfRun, nodesOfItems, ih]

/-- A node and the nodes of its subtrees are all there are. -/
theorem nodes_eq (t : Tree) : t.nodes = 1 + nodesOfItems t.children := by
  cases t <;> simp [nodes, children, nodesOfItems, nodesOfFields_eq, nodesOfRun_eq, Nat.add_assoc]

/-- The greatest level met from `pending`, trees with their levels, and `deepest`. -/
def walk (deepest : Nat) : List (Tree × Nat) → Nat
  | [] => deepest
  | (t, level) :: pending =>
    walk (max deepest level) (t.children.map (fun child => (child, level + 1)) ++ pending)
termination_by pending => nodesOfItems (pending.map Prod.fst)
decreasing_by
  have := t.nodes_eq
  simp [Function.comp_def, nodesOfItems, nodesOfItems_append]
  omega

/-- The number of levels of a tree; a leaf has one. -/
def height (t : Tree) : Nat := walk 0 [(t, 1)]

end Tree

end PoolScaling.Expr
