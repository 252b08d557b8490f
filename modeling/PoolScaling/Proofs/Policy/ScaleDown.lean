import PoolScaling.Proofs.Policy.Demand

/-! What counts as a scale-down.

The grace period compares a candidate, rounded up, with the desired size. The decision
first holds the same number between zero and the largest pool. The two agree wherever a
pool could become smaller, at both ends of the range of sizes (`Policy.isScaleDown_iff_lt`).
Only of an empty pool a candidate below it starts a tracker, though the decision is to
change nothing (`Policy.grace_follows_decision`). -/
namespace PoolScaling
open Number

theorem Number.place_neg_one : place (-1.0) = some ((-1 : ℚ) : Line) := by
  have hone : place 1.0 = some ((1 : ℚ) : Line) := by
    show some (dyadic false (2 ^ 52) (-52) : Line) = _
    norm_num [dyadic]
  exact place_neg hone

namespace Decision

variable {p : PoolSize} {c : Float}

/-- A decision on a candidate makes a pool smaller when the candidate is rounded to less
than the desired size. -/
theorem ofDemand_below_iff (c : Float) (p : PoolSize) :
    (∃ n, ofDemand (some c) (some p) = .scaleTo n ∧ n < p.desired) ↔ roundUp c < p.desired := by
  constructor
  · rintro ⟨n, hn, hlt⟩
    rwa [roundUp_of_ofDemand hn]
  · intro hlt
    have hne : (p.desired == roundUp c) = false := beq_eq_false_iff_ne.mpr (UInt32.ne_of_lt hlt).symm
    refine ⟨roundUp c, ?_, hlt⟩
    simp only [ofDemand, Option.any_some, hne, Bool.false_eq_true, if_false]

/-- A candidate that is rounded up to zero or less leaves an empty pool as it is. -/
theorem ofDemand_of_empty {q : ℚ} (hc : place c = some (q : Line)) (hq : ⌈q⌉ ≤ 0) (hp : p.desired = 0) :
    ofDemand (some c) (some p) = .noChange := by
  have hzero : roundUp c = p.desired := by
    rw [hp, ← UInt32.toNat_inj, toNat_roundUp hc, Int.toNat_of_nonpos hq]
    exact Nat.min_zero _
  simp only [ofDemand, Option.any_some, hzero, beq_self_eq_true, if_true]

end Decision

namespace Policy

variable {p : PoolSize} {c : Float} {q : ℚ}

/-- A candidate is a scale-down when it is rounded to less than the desired size, or is
at least one below an empty pool. -/
theorem isScaleDown_iff_lt (hc : place c = some (q : Line)) :
    isScaleDown p c = true ↔ Decision.roundUp c < p.desired ∨ (p.desired = 0 ∧ c ≤ -1.0) := by
  have hlargest : Decision.largestPool = 2 ^ 32 - 1 := rfl
  have hlt := p.desired.toNat_lt
  have hbelow : c ≤ -1.0 ↔ ⌈q⌉ ≤ -1 := by
    rw [le_iff hc place_neg_one, WithBotTop.coe_le_coe, Int.ceil_le]
    norm_num
  rw [isScaleDown_iff hc, hbelow, UInt32.lt_iff_toNat_lt, Decision.toNat_roundUp hc, ← UInt32.toNat_inj]
  show _ ↔ _ ∨ (p.desired.toNat = 0 ∧ _)
  omega

/-- **Scale-downs.** Whatever the grace period, its tracker and the time, a finite
candidate for a known pool is a scale-down exactly when the decision on it makes the pool
smaller, or the pool is to be empty and the candidate is at most minus one, where the
decision is no change. Then the tracker starts or goes on from where it started; else it
ends. -/
theorem grace_follows_decision (period : Duration) (t : Tracker) (p : PoolSize) (now : Instant) {c : Float}
    (hc : c.isFinite = true) :
    (isScaleDown p c = true ↔
      (∃ n, Decision.ofDemand (some c) (some p) = .scaleTo n ∧ n < p.desired) ∨
        (p.desired = 0 ∧ c ≤ -1.0)) ∧
    (p.desired = 0 → c ≤ -1.0 → Decision.ofDemand (some c) (some p) = .noChange) ∧
    (apply (some p) now (.grace period t) (some c)).2.graces =
      [(period, match isScaleDown p c, t with
        | true, .idle => .since now
        | true, .since start => .since start
        | false, _ => .idle)] := by
  obtain ⟨q, hq⟩ := isFinite_iff.mp hc
  refine ⟨?_, fun hp hbelow => ?_, ?_⟩
  · rw [Decision.ofDemand_below_iff, isScaleDown_iff_lt hq]
  · have hceil : ⌈q⌉ ≤ -1 := by
      rw [le_iff hq place_neg_one, WithBotTop.coe_le_coe] at hbelow
      exact Int.ceil_le.mpr (by exact_mod_cast hbelow)
    exact Decision.ofDemand_of_empty hq (by omega) hp
  · have hhold := hold_some (p := p) (c := c) period t now
    show [(period, (hold period t (some p) now (some c)).2)] = _
    rw [hhold]
    cases isScaleDown p c <;> cases t <;> rfl

/-- Of ten, eight is a scale-down: the decision is to shrink the pool, and a tracker that
is running goes on. -/
theorem grace_follows_eight_of_ten :
    (8.0 : Float).isFinite = true ∧
      (∃ n, Decision.ofDemand (some 8.0) (some ⟨10, 10⟩) = .scaleTo n ∧ n < 10) ∧
      (apply (some ⟨10, 10⟩) (.ofSeconds 5 0) (.grace (.ofSeconds 60) (.since (.ofSeconds 0 0)))
          (some 8.0)).2.graces =
        [(.ofSeconds 60, .since (.ofSeconds 0 0))] := by
  have hfinite : (8.0 : Float).isFinite = true := by decide
  have hdown : isScaleDown ⟨10, 10⟩ 8.0 = true := by decide +kernel
  obtain ⟨hiff, -, htracker⟩ :=
    grace_follows_decision (.ofSeconds 60) (.since (.ofSeconds 0 0)) ⟨10, 10⟩ (.ofSeconds 5 0) hfinite
  refine ⟨hfinite, ?_, ?_⟩
  · rcases hiff.mp hdown with hsmaller | ⟨hempty, -⟩
    · exact hsmaller
    · exact absurd hempty (by decide)
  · rw [htracker, hdown]

/-- Of an empty pool, minus five starts the tracker, and the decision on it makes no pool
smaller. -/
theorem grace_tracks_empty_pool :
    (apply (some ⟨0, 0⟩) (.ofSeconds 0 0) (.grace (.ofSeconds 60) .idle) (some (-5.0))).2.graces =
        [(.ofSeconds 60, .since (.ofSeconds 0 0))] ∧
      Decision.ofDemand (some (-5.0)) (some ⟨0, 0⟩) = .noChange ∧
      ¬ (isScaleDown ⟨0, 0⟩ (-5.0) = true ↔
        ∃ n, Decision.ofDemand (some (-5.0)) (some ⟨0, 0⟩) = .scaleTo n ∧ n < 0) := by
  have hkept : Decision.ofDemand (some (-5.0)) (some ⟨0, 0⟩) = .noChange := by decide +kernel
  have hdown : isScaleDown ⟨0, 0⟩ (-5.0) = true := by decide +kernel
  refine ⟨by decide +kernel, hkept, fun hiff => ?_⟩
  obtain ⟨n, hn, -⟩ := hiff.mp hdown
  rw [hkept] at hn
  cases hn

end Policy

end PoolScaling
