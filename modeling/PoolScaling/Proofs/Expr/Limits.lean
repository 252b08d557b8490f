import Mathlib.Algebra.Order.Ring.Nat
import PoolScaling.Proofs.Expr.Cost

/-! Runs within limits.

A program has a number of steps and an outcome that no limit touches. Which limit ends
a run, if one does, follows from the number alone: with time left the limit of steps
does, when it is smaller; without any time it does only before the clock is looked at
for the first time (`Program.run_within_limits`). -/
namespace PoolScaling.Expr
open Eval

/-! ### The first alarm -/

namespace Engine

variable {e : Engine}

/-- With time left, a step only runs into the limit of steps. -/
theorem alarm?_of_time {step : Nat} (h : (e.stopwatch step).nanos < e.limits.timeout.nanos) :
    e.alarm? step = if e.limits.maxSteps < step then some (.steps e.limits.maxSteps) else none := by
  have hlook : ¬ (step % clockInterval = 0 ∧ e.limits.timeout.nanos ≤ (e.stopwatch step).nanos) :=
    fun hlook => Nat.not_le.mpr h hlook.2
  rw [alarm?, if_neg hlook]

theorem alarmWithin?_of_time (h : ∀ step, (e.stopwatch step).nanos < e.limits.timeout.nanos) (n : Nat) :
    e.alarmWithin? 0 n = if e.limits.maxSteps < n then some (.steps e.limits.maxSteps) else none := by
  induction n with
  | zero => rfl
  | succ n ih =>
    rw [alarmWithin?, ih, Nat.zero_add, alarm?_of_time (h _)]
    split_ifs <;> first | rfl | omega

theorem alarm?_of_not_time {step : Nat} (h : ∀ d, e.alarm? step ≠ some (.time d)) :
    e.alarm? step = if e.limits.maxSteps < step then some (.steps e.limits.maxSteps) else none := by
  unfold alarm? at h ⊢
  split
  · rfl
  · rename_i hsteps
    rw [if_neg hsteps] at h
    split
    · rename_i htime
      rw [if_pos htime] at h
      exact absurd rfl (h _)
    · rfl

/-- Unless the first alarm is a timeout, it is that of the limit of steps. -/
theorem alarmWithin?_of_not_time {n : Nat} (h : ∀ d, e.alarmWithin? 0 n ≠ some (.time d)) :
    e.alarmWithin? 0 n = if e.limits.maxSteps < n then some (.steps e.limits.maxSteps) else none := by
  induction n with
  | zero => rfl
  | succ n ih =>
    rw [alarmWithin?, Nat.zero_add] at h ⊢
    cases hl : e.alarmWithin? 0 n with
    | some l =>
      rw [hl] at h ih
      have hsteps := ih h
      split_ifs at hsteps with hlt
      rw [if_pos (Nat.lt_succ_of_lt hlt)]
      exact hsteps
    | none =>
      rw [hl] at h
      exact alarm?_of_not_time h

/-- Without any time, every look at the clock ends the run. -/
theorem alarm?_of_no_time (h : e.limits.timeout = .zero) (step : Nat) :
    e.alarm? step = if e.limits.maxSteps < step then some (.steps e.limits.maxSteps)
      else if step % 256 = 0 then some (.time .zero) else none := by
  have hzero : e.limits.timeout.nanos ≤ (e.stopwatch step).nanos := by
    rw [h]
    exact Nat.zero_le _
  simp only [alarm?, and_iff_left hzero]
  rw [h]
  rfl

theorem alarmWithin?_of_no_time (h : e.limits.timeout = .zero) (n : Nat) :
    e.alarmWithin? 0 n =
      if e.limits.maxSteps < n ∧ e.limits.maxSteps < 256 then some (.steps e.limits.maxSteps)
      else if 256 ≤ n ∧ 256 ≤ e.limits.maxSteps then some (.time .zero)
      else none := by
  induction n with
  | zero => rw [if_neg (by omega), if_neg (by omega), alarmWithin?]
  | succ n ih =>
    rw [alarmWithin?, ih, Nat.zero_add, alarm?_of_no_time h]
    split_ifs <;> first | rfl | omega

end Engine

/-! ### Programs -/

/-- The number of nodes of statements. -/
def nodesOfStatements (ss : List Statement) : Nat := (ss.map fun s => s.tree.nodes).sum

def Program.nodes (p : Program) : Nat := nodesOfStatements p.statements

theorem runStatements_affordable (c : Context) (last : Option Value) {ss : List Statement}
    (h : ∀ s ∈ ss, s.tree.height ≤ maxHeight) :
    Affordable (fun e => runStatements (c.under e) last ss) maxHeight (nodesOfStatements ss) := by
  induction ss generalizing c last with
  | nil =>
    cases last with
    | some v => exact affordable_pure v
    | none => exact affordable_fail fun l => nofun
  | cons s ss ih =>
    have hs := h s List.mem_cons_self
    have hss := fun c last => ih c last fun s hs => h s (List.mem_cons_of_mem _ hs)
    cases s with
    | define name t =>
      have ht := (t.eval_affordable c).mono hs
      exact ht.bind fun v => hss { c with locals := Dictionary.insert name v c.locals } last
    | yield t =>
      have ht := (t.eval_affordable c).mono hs
      exact ht.bind fun v => hss c (some v)
    | answer t =>
      have ht := (t.eval_affordable c).mono hs
      exact ht.loosen (Nat.le_add_right _ _)

/-- The outcome of `n` steps to `o`, or the limit that comes first. -/
theorem Program.run_of_takes {p : Program} {bindings : Dictionary Value} {n : Nat} {o : Outcome Value}
    (h : Takes (fun e => runStatements ((⟨[], bindings, .standard, .still⟩ : Context).under e) none p.statements)
      maxHeight n o) {limits : Limits} (stopwatch : Stopwatch) (hrange : limits.timeout.seconds < clockRange) :
    p.run bindings limits stopwatch =
      match (Engine.mk limits stopwatch).alarmWithin? 0 n with
      | some l => fail (.limit l)
      | none => o := by
  have hrun := h ⟨limits, stopwatch⟩ 0 0 (Nat.le_of_eq (Nat.zero_add _))
  unfold Program.run
  rw [if_neg (Nat.not_le.mpr hrange)]
  cases hl : (Engine.mk limits stopwatch).alarmWithin? 0 n with
  | some l =>
    rw [hl] at hrun
    obtain ⟨s', hrun⟩ := hrun
    rw [show runStatements ⟨[], bindings, limits, stopwatch⟩ none p.statements ⟨0, 0⟩ = _ from hrun]
    rfl
  | none =>
    rw [hl] at hrun
    rw [show runStatements ⟨[], bindings, limits, stopwatch⟩ none p.statements ⟨0, 0⟩ = _ from hrun]
    cases o <;> rfl

/-- **Runs within limits.** Every compiled program is bounded. A bounded program takes a
number of steps, at most its number of nodes, to an outcome that is no limit. As long as
there is time, it ends at the limit of steps when it is allowed fewer, and otherwise with
that outcome. Without any time, it ends at the limit of steps when it is allowed fewer
than it takes and fewer than 256, at that of time when it takes and is allowed as many,
and otherwise with that outcome. -/
theorem Program.run_within_limits :
    (∀ source p, compile source = .ok p → p.Bounded) ∧
    ∀ (p : Program) (bindings : Dictionary Value), p.Bounded →
      ∃ n ≤ p.nodes, ∃ o, ¬ AtLimit o ∧
        (∀ m timeout stopwatch, timeout.seconds < clockRange →
          (∀ step, (stopwatch step).nanos < timeout.nanos) →
          p.run bindings ⟨m, timeout⟩ stopwatch = if m < n then fail (.limit (.steps m)) else o) ∧
        ∀ m stopwatch, p.run bindings ⟨m, .zero⟩ stopwatch =
          if m < n ∧ m < 256 then fail (.limit (.steps m))
          else if 256 ≤ n ∧ 256 ≤ m then fail (.limit (.time .zero))
          else o := by
  refine ⟨fun source p => bounded_of_compile, fun p bindings hp => ?_⟩
  obtain ⟨n, hn, o, ho, htakes⟩ := runStatements_affordable ⟨[], bindings, .standard, .still⟩ none hp
  refine ⟨n, hn, o, ho, fun m timeout stopwatch hrange htime => ?_, fun m stopwatch => ?_⟩
  · rw [run_of_takes htakes stopwatch hrange, Engine.alarmWithin?_of_time htime]
    split_ifs <;> rfl
  · rw [run_of_takes htakes stopwatch (by show Duration.zero.seconds < clockRange; decide),
      Engine.alarmWithin?_of_no_time rfl]
    split_ifs <;> rfl

/-- A sum of two numbers takes three steps. -/
theorem Program.run_sum_within_limits :
    ∃ p, compile "1 + 2" = .ok p ∧ ∃ o, ¬ AtLimit o ∧
      (∀ m, p.run [] ⟨m, .ofSeconds 1⟩ .still = if m < 3 then fail (.limit (.steps m)) else o) ∧
      ∀ m, p.run [] ⟨m, .zero⟩ .still = if m < 3 then fail (.limit (.steps m)) else o := by
  have htwo : (compile "1 + 2").toOption.map (fun p =>
    (p.run [] ⟨2, .ofSeconds 1⟩ .still).toOption.isSome) = some false := by decide +kernel
  have hthree : (compile "1 + 2").toOption.map (fun p =>
    (p.run [] ⟨3, .ofSeconds 1⟩ .still).toOption.isSome) = some true := by decide +kernel
  cases hp : compile "1 + 2" with
  | error e =>
    rw [hp] at htwo
    cases htwo
  | ok p =>
    rw [hp] at htwo hthree
    obtain ⟨n, -, o, ho, htime, hnone⟩ := run_within_limits.2 p [] (run_within_limits.1 _ p hp)
    have hrun := fun m => htime m (.ofSeconds 1) .still (by decide) fun _ =>
      (by decide : Duration.zero.nanos < (Duration.ofSeconds 1).nanos)
    have hn : n = 3 := by
      have htwo : (p.run [] ⟨2, .ofSeconds 1⟩ .still).toOption.isSome = false := Option.some.inj htwo
      have hthree : (p.run [] ⟨3, .ofSeconds 1⟩ .still).toOption.isSome = true := Option.some.inj hthree
      rw [hrun] at htwo hthree
      by_contra hne
      rcases Nat.lt_or_gt_of_ne hne with hlt | hgt
      · rw [if_neg (by omega)] at htwo hthree
        rw [htwo] at hthree
        cases hthree
      · rw [if_pos hgt] at hthree
        cases hthree
    subst hn
    refine ⟨p, rfl, o, ho, hrun, fun m => ?_⟩
    rw [hnone, if_neg (fun h => absurd h.1 (by decide) : ¬ (256 ≤ 3 ∧ 256 ≤ m))]
    by_cases hm : m < 3
    · rw [if_pos hm, if_pos ⟨hm, by omega⟩]
    · rw [if_neg hm, if_neg fun h => hm h.1]

end PoolScaling.Expr
