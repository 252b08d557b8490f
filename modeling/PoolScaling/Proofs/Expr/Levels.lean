import Mathlib.Logic.Relation
import PoolScaling.Proofs.Expr.Height

/-! Levels of trees.

`levels` counts the levels of a tree by its shape, form by form. The walk that finds the
height sees one node at a time, and the children of many nodes stand side by side in the
list of those it has still to see. Which of them comes next, and where its children are
put, makes no difference: a round leaves fewer nodes to be seen (`Round.nodes_lt`), and a
bound on the levels holds after it exactly when it held before (`Round.within_iff`). So
every walk ends, and with the levels of the tree (`walks_find_levels`). -/
namespace PoolScaling.Expr.Tree

mutual

/-- The number of levels of a tree, by its shape. -/
def levels : Tree → Nat
  | number _ | string _ | bool _ | null | name _ => 1
  | array items => 1 + levelsOfItems items
  | record fields => 1 + levelsOfFields fields
  | unary _ operand => 1 + levels operand
  | run first rest => 1 + max (levels first) (levelsOfRun rest)
  | conditional condition yes no => 1 + max (levels condition) (max (levels yes) (levels no))
  | member target _ => 1 + levels target
  | index target i => 1 + max (levels target) (levels i)
  | call callee arguments => 1 + max (levels callee) (levelsOfItems arguments)

/-- The most levels among trees; none without any. -/
def levelsOfItems : List Tree → Nat
  | [] => 0
  | t :: ts => max (levels t) (levelsOfItems ts)

def levelsOfFields : List (String × Tree) → Nat
  | [] => 0
  | (_, t) :: fields => max (levels t) (levelsOfFields fields)

def levelsOfRun : List (BinaryOp × Tree) → Nat
  | [] => 0
  | (_, t) :: rest => max (levels t) (levelsOfRun rest)

end

variable {n : Nat}

theorem levelsOfItems_le_iff {ts : List Tree} : levelsOfItems ts ≤ n ↔ ∀ t ∈ ts, t.levels ≤ n := by
  induction ts with
  | nil => simp [levelsOfItems]
  | cons t ts ih => simp [levelsOfItems, ih]

theorem levelsOfFields_eq (fields : List (String × Tree)) :
    levelsOfFields fields = levelsOfItems (fields.map Prod.snd) := by
  induction fields with
  | nil => rfl
  | cons field fields ih => simp [levelsOfFields, levelsOfItems, ih]

theorem levelsOfRun_eq (rest : List (BinaryOp × Tree)) :
    levelsOfRun rest = levelsOfItems (rest.map Prod.snd) := by
  induction rest with
  | nil => rfl
  | cons operand rest ih => simp [levelsOfRun, levelsOfItems, ih]

/-- The children are all that a tree has below its root. -/
theorem levels_eq (t : Tree) : t.levels = 1 + levelsOfItems t.children := by
  cases t <;> simp [levels, children, levelsOfItems, levelsOfFields_eq, levelsOfRun_eq]

/-! ### Walks -/

/-- A walk on its way: the deepest level met, and the trees still to be seen with theirs. -/
structure Walk where
  deepest : Nat
  pending : List (Tree × Nat)

namespace Walk

def start (t : Tree) : Walk := ⟨0, [(t, 1)]⟩

/-- One round: any pending tree is taken, be it from the top of a stack or from the front of
a queue, and its children are put anywhere among the others. -/
def Round (w w' : Walk) : Prop :=
  ∃ t level others, w.pending.Perm ((t, level) :: others) ∧ w'.deepest = max w.deepest level ∧
    w'.pending.Perm (t.children.map (fun child => (child, level + 1)) ++ others)

/-- The nodes still to be seen. -/
def nodes (w : Walk) : Nat := nodesOfItems (w.pending.map Prod.fst)

/-- Whether nothing that has been seen or will be is deeper than level `n`. -/
def Within (w : Walk) (n : Nat) : Prop := w.deepest ≤ n ∧ ∀ p ∈ w.pending, p.2 + p.1.levels ≤ n + 1

variable {w w' : Walk}

theorem nodesOfItems_perm {ts us : List Tree} (h : ts.Perm us) : nodesOfItems ts = nodesOfItems us := by
  induction h with
  | nil => rfl
  | cons t _ ih => rw [nodesOfItems, nodesOfItems, ih]
  | swap t u ts => simp only [nodesOfItems, Nat.add_left_comm]
  | trans _ _ ih ih' => exact ih.trans ih'

theorem Round.nodes_lt (h : Round w w') : w'.nodes < w.nodes := by
  obtain ⟨t, level, others, htaken, -, hput⟩ := h
  have hnodes := t.nodes_eq
  rw [nodes, nodes, nodesOfItems_perm (htaken.map Prod.fst), nodesOfItems_perm (hput.map Prod.fst)]
  simp only [List.map_append, List.map_map, Function.comp_def, List.map_id', List.map_cons, nodesOfItems,
    nodesOfItems_append]
  omega

theorem Round.within_iff (h : Round w w') (n : Nat) : w'.Within n ↔ w.Within n := by
  obtain ⟨t, level, others, htaken, hdeepest, hput⟩ := h
  have hchildren : level + t.levels ≤ n + 1 ↔
      level ≤ n ∧ ∀ child ∈ t.children, level + 1 + child.levels ≤ n + 1 := by
    rw [t.levels_eq]
    constructor
    · intro hle
      refine ⟨by omega, fun child hchild => ?_⟩
      have hmost := levelsOfItems_le_iff.mp (Nat.le_refl _) child hchild
      omega
    · intro ⟨hlevel, hmost⟩
      have hitems : levelsOfItems t.children ≤ n - level :=
        levelsOfItems_le_iff.mpr fun child hchild => by
          have := hmost child hchild
          omega
      omega
  simp only [Within, hdeepest, htaken.mem_iff, hput.mem_iff, List.mem_append, List.mem_map, List.mem_cons,
    or_imp, forall_and, forall_exists_index, and_imp, forall_apply_eq_imp_iff₂, forall_eq, Nat.max_le, hchildren]
  tauto

theorem within_of_rounds (h : Relation.ReflTransGen Round w w') (n : Nat) : w'.Within n ↔ w.Within n := by
  induction h with
  | refl => exact Iff.rfl
  | tail _ hround ih => exact (hround.within_iff n).trans ih

/-- The walk from the front is a walk. -/
theorem rounds_walk (deepest : Nat) (pending : List (Tree × Nat)) :
    Relation.ReflTransGen Round ⟨deepest, pending⟩ ⟨walk deepest pending, []⟩ := by
  induction deepest, pending using walk.induct with
  | case1 deepest =>
    rw [walk]
  | case2 deepest t level pending ih =>
    rw [walk]
    exact .head ⟨t, level, pending, .refl _, rfl, .refl _⟩ ih

/-- A walk that has nothing more to see has found the levels of the tree. -/
theorem deepest_eq_levels {t : Tree} (h : Relation.ReflTransGen Round (start t) w) (hdone : w.pending = []) :
    w.deepest = t.levels := by
  have hle : ∀ n, w.deepest ≤ n ↔ t.levels ≤ n := by
    intro n
    have hwithin := within_of_rounds h n
    simp only [Within, start, hdone, List.not_mem_nil, List.mem_singleton] at hwithin
    simpa [Nat.add_comm 1] using hwithin
  exact Nat.le_antisymm ((hle _).mpr (Nat.le_refl _)) ((hle _).mp (Nat.le_refl _))

end Walk

/-- **The walk finds the levels.** The height of a tree is the number of levels that its shape
has. No walk goes on for ever, and none stops before every node has been seen; when all
have been, the deepest level is the height, in whatever order they were seen. -/
theorem walks_find_levels (t : Tree) :
    t.height = t.levels ∧ WellFounded (flip Walk.Round) ∧
      ∀ w, Relation.ReflTransGen Walk.Round (.start t) w →
        (w.pending = [] ∧ w.deepest = t.height) ∨ ∃ w', Walk.Round w w' := by
  have hheight : t.height = t.levels := Walk.deepest_eq_levels (Walk.rounds_walk 0 [(t, 1)]) rfl
  refine ⟨hheight, ?ends, fun w hw => ?_⟩
  case ends => exact Subrelation.wf Walk.Round.nodes_lt (measure Walk.nodes).wf
  cases hpending : w.pending with
  | nil => exact .inl ⟨rfl, (Walk.deepest_eq_levels hw hpending).trans hheight.symm⟩
  | cons taken others =>
    obtain ⟨t', level⟩ := taken
    exact .inr ⟨⟨max w.deepest level, _⟩, t', level, others, hpending ▸ .refl _, rfl, .refl _⟩

/-- In `[[], {a: f(x)}]` the argument is on the fourth level, and a walk that sees the record
before the list ends there too. -/
theorem walks_find_levels_four :
    let t : Tree := .array [.array [], .record [("a", .call (.name "f") [.name "x"])]]
    t.height = 4 ∧ ∃ w, Relation.ReflTransGen Walk.Round (.start t) w ∧ w.pending = [] ∧ w.deepest = 4 := by
  intro t
  obtain ⟨hheight, -, hwalks⟩ := walks_find_levels t
  have hfour : t.height = 4 := hheight.trans (by decide)
  have hrounds : Relation.ReflTransGen Walk.Round (.start t) ⟨4, []⟩ := by
    have hround : ∀ {w : Walk} (t' level others), w.pending.Perm ((t', level) :: others) →
        Walk.Round w ⟨max w.deepest level, t'.children.map (fun child => (child, level + 1)) ++ others⟩ :=
      fun t' level others h => ⟨t', level, others, h, rfl, .refl _⟩
    refine .head (hround t 1 [] (.refl _)) ?_
    refine .head (hround (.record [("a", .call (.name "f") [.name "x"])]) 2 [(.array [], 2)] (.swap _ _ _)) ?_
    refine .head (hround _ 3 _ (.refl _)) ?_
    refine .head (hround _ 4 _ (.refl _)) ?_
    refine .head (hround _ 4 _ (.refl _)) ?_
    exact .head (hround _ 2 _ (.refl _)) .refl
  obtain hdone | ⟨w', t', level, others, htaken, -⟩ := hwalks _ hrounds
  · exact ⟨hfour, _, hrounds, hdone.1, hdone.2.trans hfour⟩
  · exact absurd htaken (List.not_perm_nil_cons _ _)

end PoolScaling.Expr.Tree
