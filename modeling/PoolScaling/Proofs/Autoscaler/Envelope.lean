import PoolScaling.Proofs.Autoscaler.Cycle
import PoolScaling.Proofs.Policy.Demand

/-! The envelope of decisions.

Damping chooses between two numbers: a decision is the aggregate or the desired size
(`Reading.envelope_answer`). Both are finite, and rounding a finite number up to a size
is exact (`Decision.ofDemand_exact`). An aggregate that asks for a greater pool is no
scale-down, so only the tolerance can keep it from being the decision, and no state of a
tracker does (`Damping.damped_of_up`). -/
namespace PoolScaling
open Number

/-! ### Rounding -/

namespace Decision

variable {x : Float}

/-- Rounding a finite number up reads a whole number within the range of sizes, and that
is the size asked for. -/
theorem ofDemand_exact (h : x.isFinite = true) (pool : Option PoolSize) :
    ∃ (q : ℚ) (n : UInt32), place x = some (q : Line) ∧
      (n.toNat : ℤ) = min (2 ^ 32 - 1) (max 0 ⌈q⌉) ∧
      toNat? (confine (ceil x) 0.0 (signed false largestPool)) = some n.toNat ∧
      ofDemand (some x) pool = if pool.any fun p => p.desired == n then .noChange else .scaleTo n := by
  obtain ⟨q, hq⟩ := isFinite_iff.mp h
  have hlargest : largestPool = 2 ^ 32 - 1 := rfl
  have hsize := toNat_roundUp hq
  refine ⟨q, roundUp x, hq, by omega, ?_, rfl⟩
  rw [hsize]
  exact toNat?_bounded hq

/-- A pool is told to reach any other size than it has been asked for. -/
theorem ofDemand_of_ne {p : PoolSize} (h : p.desired ≠ roundUp x) :
    ofDemand (some x) (some p) = .scaleTo (roundUp x) := by
  have hne : (p.desired == roundUp x) = false := beq_eq_false_iff_ne.mpr h
  simp only [ofDemand, Option.any_some, hne, Bool.false_eq_true, if_false]

end Decision

/-! ### Damping -/

/-- What may be made of an aggregate: it passes, or the desired size of a known pool takes
its place. -/
inductive Envelope (pool : Option PoolSize) : Option Float → Option Float → Prop
  | absent : Envelope pool none none
  | passed (c : Float) : Envelope pool (some c) (some c)
  | kept (c : Float) (p : PoolSize) (hp : pool = some p) : Envelope pool (some c) (some p.target)

theorem Reading.envelope_answer (d : Damping) (passes : Bool) (r : Reading) :
    Envelope r.pool r.candidate (r.answer d passes) := by
  obtain ⟨pool, candidate, now⟩ := r
  cases candidate with
  | none => exact .absent
  | some c =>
    cases pool with
    | none => exact .passed c
    | some p =>
      rw [answer_some, Damping.damped]
      split
      · exact .kept c p rfl
      · exact .passed c

theorem Envelope.isFinite {pool : Option PoolSize} {aggregate : Option Float} {x : Float}
    (h : Envelope pool aggregate (some x)) (hfinite : ∀ c, aggregate = some c → c.isFinite = true) :
    x.isFinite = true := by
  cases h with
  | passed => exact hfinite x rfl
  | kept c p hp => exact isFinite_iff.mpr ⟨_, place_target p⟩

namespace Damping

variable {d : Damping} {p : PoolSize} {c : Float} {q : ℚ}

/-- Whatever the tracker, a candidate for a greater pool passes unless the tolerance takes it. -/
theorem damped_of_up (passes : Bool) (hc : place c = some (q : Line)) (hup : (p.desired.toNat : ℤ) < ⌈q⌉)
    (hfar : ¬ (p.target - c).abs ≤ d.tolerance) : d.damped passes p c = c := by
  have hnot : Policy.isScaleDown p c = false := by
    rw [← Bool.not_eq_true, Policy.isScaleDown_iff hc, not_lt]
    exact hup.le
  have houtside : d.tolerates p c = false := by
    rw [tolerates, Bool.and_eq_false_iff]
    exact .inr (decide_eq_false hfar)
  rw [damped, keeps, houtside, hnot, Bool.false_and, Bool.or_false]
  rfl

end Damping

/-! ### Decisions and cycles -/

namespace Pipeline

variable {p : Pipeline} {forecasts : Dictionary (Option Forecast)} {pool : Option PoolSize} {now : Instant}

/-- A decision fails where the aggregate does or no damping is configured; any other is
within the envelope of the aggregate. -/
theorem decide_within (hp : Damper.Used p.damper) (forecasts : Dictionary (Option Forecast))
    (pool : Option PoolSize) (now : Instant) :
    match p.aggregate forecasts now, p.damper.configuration with
    | .error e, _ => decide forecasts pool now p = .error e p
    | .ok _, none => decide forecasts pool now p = .error (.error (.policy .notConfigured)) p
    | .ok aggregate, some _ => ∃ d p', decide forecasts pool now p = .ok d p' ∧ Envelope pool aggregate d := by
  cases haggregate : p.aggregate forecasts now with
  | error e => exact decide_error haggregate
  | ok aggregate =>
    generalize hdamper : p.damper = damper at hp
    cases hp with
    | new => exact decide_new haggregate hdamper
    | running d t hd =>
      obtain ⟨t', hdecide⟩ := decide_running pool haggregate hd hdamper
      exact ⟨_, _, hdecide, Reading.envelope_answer d _ ⟨pool, aggregate, now⟩⟩

/-- A decision that is made is a finite number. -/
theorem isFinite_of_decide (hp : Damper.Used p.damper) {x : Float} {p' : Pipeline}
    (h : decide forecasts pool now p = .ok (some x) p') : x.isFinite = true := by
  have hwithin := decide_within hp forecasts pool now
  split at hwithin
  · rw [hwithin] at h
    cases h
  · rw [hwithin] at h
    cases h
  · rename_i aggregate _ haggregate _
    obtain ⟨d, p'', hdecide, henvelope⟩ := hwithin
    rw [hdecide] at h
    cases h
    exact henvelope.isFinite fun c hc => isFinite_of_aggregate (hc ▸ haggregate)

end Pipeline

namespace Autoscaler

variable {a : Autoscaler} {d : Damping} {t : Tracker} {s : PoolSize} {now : Instant} {c : Float} {q : ℚ}

/-- With any tracker, a cycle asks at once for a greater pool. -/
theorem cycle_of_up (hd : d.validate = .ok ()) (hdamper : a.pipeline.damper = .running d t)
    (hpool : a.pool = some s)
    (haggregate : a.pipeline.aggregate (gather a.forecasters a.pool now) now = .ok (some c))
    (hc : place c = some (q : Line)) (hup : (s.desired.toNat : ℤ) < min (2 ^ 32 - 1) ⌈q⌉)
    (hfar : ¬ (s.target - c).abs ≤ d.tolerance) :
    ((Decision.roundUp c).toNat : ℤ) = min (2 ^ 32 - 1) ⌈q⌉ ∧
      ∃ a', cycle now a = .ok (.scaleTo (Decision.roundUp c)) a' := by
  have hlargest : Decision.largestPool = 2 ^ 32 - 1 := rfl
  have hsize := Decision.toNat_roundUp hc
  have hexact : ((Decision.roundUp c).toNat : ℤ) = min (2 ^ 32 - 1) ⌈q⌉ := by omega
  have hne : s.desired ≠ Decision.roundUp c := by
    intro h
    rw [h, hexact] at hup
    exact lt_irrefl _ hup
  obtain ⟨t', hdecide⟩ := Pipeline.decide_running a.pool haggregate hd hdamper
  rw [hpool, Reading.answer_some, Damping.damped_of_up _ hc (hup.trans_le (min_le_right _ _)) hfar,
    ← hpool] at hdecide
  refine ⟨hexact, ?_⟩
  rw [cycle_eq, hdecide]
  dsimp only
  rw [hpool, Decision.ofDemand_of_ne hne]
  exact ⟨_, rfl⟩

/-- **The envelope.** Whatever a new pipeline has been asked, by any stopwatch, a decision on any forecasts,
for any pool and at any time fails only where the aggregate does or no damping is
configured. Without an aggregate there is none; any other is the aggregate or the desired
size of a known pool, and finite. Rounding it up is exact, and the size that the pool has
been asked to reach is no change. A cycle decides so. And with any tracker, an aggregate
for a greater pool that is outside the tolerance is asked for at once. -/
theorem decision_within_envelope (stopwatch : Expr.Stopwatch) (history : List Pipeline.Operation) :
    let p := (Pipeline.new stopwatch).after history
    (∀ forecasts pool now,
      match p.aggregate forecasts now, p.damper.configuration with
      | .error e, _ => Pipeline.decide forecasts pool now p = .error e p
      | .ok _, none => Pipeline.decide forecasts pool now p = .error (.error (.policy .notConfigured)) p
      | .ok aggregate, some _ =>
        ∃ d p', Pipeline.decide forecasts pool now p = .ok d p' ∧ Envelope pool aggregate d ∧
          ∀ x, d = some x → x.isFinite = true ∧ ∃ (q : ℚ) (n : UInt32), place x = some (q : Line) ∧
            (n.toNat : ℤ) = min (2 ^ 32 - 1) (max 0 ⌈q⌉) ∧
            toNat? (confine (ceil x) 0.0 (signed false Decision.largestPool)) = some n.toNat ∧
            Decision.ofDemand d pool = if pool.any fun s => s.desired == n then .noChange else .scaleTo n) ∧
    (∀ (a : Autoscaler) now decision a', a.pipeline = p → cycle now a = .ok decision a' →
      ∃ d p', Pipeline.decide (gather a.forecasters a.pool now) a.pool now p = .ok d p' ∧
        decision = .ofDemand d a.pool) ∧
    ∀ damping, p.damper.configuration = some damping →
      (∃ t, p.damper = .running damping t) ∧
      ∀ t (a : Autoscaler) s now c, a.pipeline = { p with damper := .running damping t } → a.pool = some s →
        p.aggregate (gather a.forecasters a.pool now) now = .ok (some c) →
        ¬ (s.target - c).abs ≤ damping.tolerance →
        ∃ q : ℚ, place c = some (q : Line) ∧
          ((s.desired.toNat : ℤ) < min (2 ^ 32 - 1) ⌈q⌉ →
            ∃ n a', (n.toNat : ℤ) = min (2 ^ 32 - 1) ⌈q⌉ ∧ cycle now a = .ok (.scaleTo n) a') := by
  intro p
  have hused : Damper.Used p.damper := Pipeline.used_after stopwatch history
  refine ⟨fun forecasts pool now => ?decisions, fun a now decision a' ha hcycle => ?cycles,
    fun damping hdamping => ?up⟩
  case decisions =>
    have hwithin := Pipeline.decide_within hused forecasts pool now
    split at hwithin
    · exact hwithin
    · exact hwithin
    · obtain ⟨d, p', hdecide, henvelope⟩ := hwithin
      refine ⟨d, p', hdecide, henvelope, ?_⟩
      rintro x rfl
      have hfinite := Pipeline.isFinite_of_decide hused hdecide
      exact ⟨hfinite, Decision.ofDemand_exact hfinite pool⟩
  case cycles =>
    rw [cycle_eq, ha] at hcycle
    split at hcycle
    · rename_i d p' hdecide
      cases hcycle
      exact ⟨d, p', hdecide, rfl⟩
    · cases hcycle
  case up =>
    generalize hdamper : p.damper = damper at hused hdamping
    cases hused with
    | new => cases hdamping
    | running d t₀ hd =>
      cases hdamping
      refine ⟨⟨t₀, rfl⟩, fun t a s now c ha hpool haggregate hfar => ?_⟩
      obtain ⟨q, hq⟩ := isFinite_iff.mp (Pipeline.isFinite_of_aggregate haggregate)
      refine ⟨q, hq, fun hup => ?_⟩
      have hsame : a.pipeline.aggregate (gather a.forecasters a.pool now) now = .ok (some c) := by
        rw [ha]
        exact haggregate
      obtain ⟨hexact, a', hcycle⟩ :=
        cycle_of_up hd (congrArg Pipeline.damper ha) hpool hsame hq hup hfar
      exact ⟨_, a', hexact, hcycle⟩

/-- While a scale-down is held back, twelve and a half of ten is asked for at once. -/
theorem scaleTo_thirteen_of_ten :
    let p := (Pipeline.new .still).after Pipeline.heldBack
    let a : Autoscaler := ⟨[.computeUnits "f" 12.5], none, .manual (.ofSeconds 0 0), p, some ⟨10, 10⟩, []⟩
    p.graces = [(.ofSeconds 60, .since (.ofSeconds 0 0))] ∧
      ¬ ((PoolSize.mk 10 10).target - 12.5).abs ≤ 0.0 ∧
      ∃ n a', (n.toNat : ℤ) = 13 ∧ cycle (.ofSeconds 1 0) a = .ok (.scaleTo n) a' := by
  intro p a
  have hfar : ¬ ((PoolSize.mk 10 10).target - 12.5).abs ≤ 0.0 := by decide +kernel
  have haggregate : p.aggregate (gather a.forecasters a.pool (.ofSeconds 1 0)) (.ofSeconds 1 0) =
      .ok (some 12.5) := Change.eq_ok_of_toOption (by decide +kernel)
  have hplace : place 12.5 = some ((25 / 2 : ℚ) : Line) := by
    show some (dyadic false 7036874417766400 (-49) : Line) = _
    norm_num [dyadic]
  have hdamping : p.damper.configuration.map Damping.tolerance = some 0.0 := by decide +kernel
  obtain ⟨-, -, hup⟩ := decision_within_envelope .still Pipeline.heldBack
  cases hconfigured : p.damper.configuration with
  | none =>
    rw [hconfigured] at hdamping
    cases hdamping
  | some damping =>
    rw [hconfigured] at hdamping
    have htolerance : damping.tolerance = 0.0 := Option.some.inj hdamping
    obtain ⟨⟨t, ht⟩, hup⟩ := hup damping hconfigured
    have ha : a.pipeline = { p with damper := .running damping t } := by
      rw [← ht]
    obtain ⟨q, hq, hscales⟩ := hup t a _ (.ofSeconds 1 0) 12.5 ha rfl haggregate (htolerance ▸ hfar)
    have hq : (25 / 2 : ℚ) = q := by
      rw [hplace] at hq
      exact WithBotTop.coe_injective (Option.some.inj hq)
    have hceil : ⌈q⌉ = 13 := by
      rw [← hq]
      norm_num [Int.ceil_eq_iff]
    rw [hceil] at hscales
    exact ⟨by decide +kernel, hfar, hscales (by decide)⟩

end Autoscaler

end PoolScaling
