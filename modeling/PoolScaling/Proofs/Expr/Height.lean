import Mathlib.Order.Bounds.Basic
import Mathlib.Order.MinMax
import PoolScaling.Proofs.Expr.Visits

/-! Heights of trees.

The height of a tree is found by a walk that sees one node at a time. It is one more
than the most ancestors that a node of the tree has (`isGreatest_height`), so it
falls from every node to its children. A source that compiles has no tree of more
than `maxHeight` levels. -/
namespace PoolScaling.Expr

namespace Tree

/-- `Below t k t'` says that `t'` is a node of `t` with `k` ancestors in it. -/
inductive Below : Tree → Nat → Tree → Prop
  | refl (t : Tree) : Below t 0 t
  | step {t t' t'' k} (h : t' ∈ t.children) (hrest : Below t' k t'') : Below t (k + 1) t''

theorem deepest_le_walk (deepest : Nat) (pending : List (Tree × Nat)) : deepest ≤ walk deepest pending := by
  induction deepest, pending using walk.induct with
  | case1 deepest =>
    rw [walk]
  | case2 deepest t level pending ih =>
    rw [walk]
    exact (le_max_left _ _).trans ih

/-- The walk meets every node of a pending tree. -/
theorem le_walk (deepest : Nat) {pending : List (Tree × Nat)} {t t' : Tree} {level k : Nat}
    (hmem : (t, level) ∈ pending) (h : Below t k t') : level + k ≤ walk deepest pending := by
  induction deepest, pending using walk.induct generalizing t level k with
  | case1 => cases hmem
  | case2 deepest t₀ level₀ pending ih =>
    rw [walk]
    rcases List.mem_cons.mp hmem with heq | hmem
    · cases heq
      cases h with
      | refl => exact (le_max_right _ _).trans (deepest_le_walk _ _)
      | step hchild hrest =>
        have hnext := ih (List.mem_append_left _ (List.mem_map_of_mem hchild)) hrest
        omega
    · exact ih (List.mem_append_right _ hmem) h

/-- What the walk finds is the level of a node of a pending tree. -/
theorem walk_eq (deepest : Nat) (pending : List (Tree × Nat)) :
    walk deepest pending = deepest ∨
      ∃ t level k t', (t, level) ∈ pending ∧ Below t k t' ∧ walk deepest pending = level + k := by
  induction deepest, pending using walk.induct with
  | case1 deepest =>
    rw [walk]
    exact .inl rfl
  | case2 deepest t₀ level₀ pending ih =>
    rw [walk]
    rcases ih with heq | ⟨t, level, k, t', hmem, hbelow, heq⟩
    · rcases max_choice deepest level₀ with hmax | hmax
      · exact .inl (heq.trans hmax)
      · exact .inr ⟨t₀, level₀, 0, t₀, List.mem_cons_self, .refl t₀, heq.trans hmax⟩
    · right
      rcases List.mem_append.mp hmem with hmap | hmem
      · obtain ⟨child, hchild, hpair⟩ := List.mem_map.mp hmap
        cases hpair
        refine ⟨t₀, level₀, k + 1, t', List.mem_cons_self, .step hchild hbelow, ?_⟩
        omega
      · exact ⟨t, level, k, t', List.mem_cons_of_mem _ hmem, hbelow, heq⟩

/-- **Height.** It is one more than the most ancestors that a node has. -/
theorem isGreatest_height (t : Tree) : IsGreatest {n | ∃ k t', Below t k t' ∧ n = k + 1} t.height := by
  constructor
  · rcases walk_eq 0 [(t, 1)] with hzero | ⟨t', level, k, t'', hmem, hbelow, heq⟩
    · have hroot := le_walk 0 (List.mem_singleton_self (t, 1)) (.refl t)
      omega
    · cases List.mem_singleton.mp hmem
      exact ⟨k, t'', hbelow, heq.trans (Nat.add_comm 1 k)⟩
  · rintro n ⟨k, t', hbelow, rfl⟩
    have hle := le_walk 0 (List.mem_singleton_self (t, 1)) hbelow
    rw [height]
    omega

variable {t t' : Tree} {k : Nat}

theorem lt_height (h : Below t k t') : k < t.height := (isGreatest_height t).2 ⟨k, t', h, rfl⟩

theorem height_pos (t : Tree) : 0 < t.height := lt_height (.refl t)

theorem height_lt_of_mem_children (h : t' ∈ t.children) : t'.height < t.height := by
  obtain ⟨k, t'', hbelow, hheight⟩ := (isGreatest_height t').1
  have hlt := lt_height (.step h hbelow)
  omega

theorem height_le_succ (h : ∀ t' ∈ t.children, t'.height ≤ k) : t.height ≤ k + 1 := by
  obtain ⟨n, t'', hbelow, hheight⟩ := (isGreatest_height t).1
  cases hbelow with
  | refl => omega
  | step hchild hrest =>
    have hbelow := lt_height hrest
    have hchild := h _ hchild
    omega

end Tree

/-- Whether no tree of a program has more levels than may be evaluated. -/
def Program.Bounded (p : Program) : Prop := ∀ s ∈ p.statements, s.tree.height ≤ maxHeight

/-- A source compiles to the statements it spells, when there are some and none is too tall. -/
theorem compile_eq_ok_iff {source : String} {p : Program} :
    compile source = .ok p ↔
      ∃ ts, tokenize source = .ok ts ∧ parse ts source.utf8ByteSize = .ok p.statements ∧ p.statements ≠ [] ∧
        p.Bounded := by
  unfold compile
  constructor
  · intro h
    split at h
    · cases h
    · rename_i ts htokens
      split at h
      · cases h
      · cases h
      · rename_i as hne hparse
        split at h
        · cases h
        · rename_i hheights
          cases h
          refine ⟨ts, htokens, hparse, hne, fun s hs => ?_⟩
          by_contra hgt
          exact hheights (List.any_eq_true.mpr ⟨s, hs, decide_eq_true (by omega)⟩)
  · rintro ⟨ts, htokens, hparse, hne, hbounded⟩
    obtain ⟨as⟩ := p
    have hheights : ¬ (as.any fun s => maxHeight < s.tree.height) = true := by
      rw [List.any_eq_true]
      rintro ⟨s, hs, htall⟩
      exact absurd (of_decide_eq_true htall) (Nat.not_lt.mpr (hbounded s hs))
    rw [htokens]
    dsimp only
    rw [hparse]
    cases as with
    | nil => exact absurd rfl hne
    | cons a as => exact if_neg hheights

theorem bounded_of_compile {source : String} {p : Program} (h : compile source = .ok p) : p.Bounded := by
  obtain ⟨-, -, -, -, hbounded⟩ := compile_eq_ok_iff.mp h
  exact hbounded

end PoolScaling.Expr
