import PoolScaling.Proofs.Autoscaler.Cycle
import PoolScaling.Proofs.Policy.Demand

/-! Settling.

In closed loop the pool is what the resizes make of it, so every decision changes
the size that the next one is compared with. With a steady aggregate it changes at
most once: a decision keeps the pool or asks for the aggregate rounded up
(`Decision.ofDemand_answer`), and a pool of that size is kept by tolerance, grace
period and rounding alike (`Decision.ofDemand_answer_settled`). `turns_settle` puts
the cycles together. -/
namespace PoolScaling
open Number

/-! ### Decisions -/

namespace Decision

variable {d : Damping} {passes : Bool} {x : Float} {now : Instant}

theorem ofDemand_target (p : PoolSize) : ofDemand (some p.target) (some p) = .noChange := by
  unfold ofDemand
  simp only [roundUp_target, Option.any_some, beq_self_eq_true, if_true]

theorem ofDemand_eq (x : Float) (pool : Option PoolSize) :
    ofDemand (some x) pool = .noChange ∨ ofDemand (some x) pool = .scaleTo (roundUp x) := by
  simp only [ofDemand]
  split
  · exact .inl rfl
  · exact .inr rfl

/-- Damping only keeps a decision from being made. -/
theorem ofDemand_answer (d : Damping) (passes : Bool) (x : Float) (now : Instant) (pool : Option PoolSize) :
    ofDemand ((Reading.mk pool (some x) now).answer d passes) pool = .noChange ∨
      ofDemand ((Reading.mk pool (some x) now).answer d passes) pool = .scaleTo (roundUp x) := by
  cases pool with
  | none => exact ofDemand_eq x none
  | some p =>
    rw [Reading.answer_some, Damping.damped]
    split
    · exact .inl (ofDemand_target p)
    · exact ofDemand_eq x (some p)

/-- A pool that has been asked to reach the aggregate rounded up is kept. -/
theorem ofDemand_answer_settled {p : PoolSize} (h : p.desired = roundUp x) :
    ofDemand ((Reading.mk (some p) (some x) now).answer d passes) (some p) = .noChange := by
  rw [Reading.answer_some, Damping.damped]
  split
  · exact ofDemand_target p
  · unfold ofDemand
    simp only [Option.any_some, h, beq_self_eq_true, if_true]

end Decision

/-! ### Cycles -/

/-- What a cycle in closed loop finds: any forecasters at any time, and the pool that
the cycles before have left. -/
structure Round where
  forecasters : List Forecaster
  now : Instant

namespace Autoscaler

/-- The occasion of a cycle in closed loop. -/
def occasion (a : Autoscaler) (r : Round) : Occasion := ⟨r.forecasters, a.pool, r.now⟩

/-- A cycle in closed loop. -/
def turn (r : Round) : Change Autoscaler (Failure DecisionError) Decision := do
  modify fun a => { a with forecasters := r.forecasters }
  cycle r.now

/-- Cycles in closed loop, with all their decisions. -/
def turns : List Round → Change Autoscaler (Failure DecisionError) (List Decision)
  | [] => pure []
  | r :: rest => do
    let decision ← turn r
    let decisions ← turns rest
    return decision :: decisions

/-- Whether the aggregate is `x` in every cycle. -/
def Steady (x : Float) : List Round → Autoscaler → Prop
  | [], _ => True
  | r :: rest, a => a.pipeline.aggregateOn (a.occasion r) = .ok (some x) ∧
      Steady x rest (Change.stateOf (turn r a))

/-- An autoscaler with a configured damper, in any state, whose resizes bring the pool
to the target at once. -/
structure Closed (d : Damping) (a : Autoscaler) : Prop where
  damper : ∃ t, a.pipeline.damper = .running d t
  resize : ∃ resize, a.resize = some resize ∧ ∀ n pool, (resize n pool).1 = some ⟨n, n⟩

/-- Whether the pool has been asked to reach `x` rounded up. -/
def Settled (x : Float) (a : Autoscaler) : Prop :=
  ∃ p, a.pool = some p ∧ p.desired = Decision.roundUp x

variable {d : Damping} {a : Autoscaler} {x : Float}

theorem turn_eq (r : Round) (a : Autoscaler) : turn r a = attend (a.occasion r) a := rfl

theorem turns_cons {r : Round} {rest : List Round} {decision : Decision} {decisions : List Decision}
    {a' a'' : Autoscaler} (h : turn r a = .ok decision a') (hrest : turns rest a' = .ok decisions a'') :
    turns (r :: rest) a = .ok (decision :: decisions) a'' := by
  rw [turns, bind_ok h, bind_ok hrest]
  rfl

/-- A cycle keeps the pool, or it asks for the aggregate rounded up, unless the pool has
been asked for that. -/
theorem turn_closed (hd : d.validate = .ok ()) (h : Closed d a) {r : Round}
    (haggregate : a.pipeline.aggregateOn (a.occasion r) = .ok (some x)) :
    ∃ a', Closed d a' ∧
      ((turn r a = .ok .noChange a' ∧ a'.pool = a.pool ∧ a'.requests = a.requests) ∨
        (turn r a = .ok (.scaleTo (Decision.roundUp x)) a' ∧ Settled x a' ∧ ¬ Settled x a ∧
          a'.requests = a.requests ++ [Decision.roundUp x])) := by
  obtain ⟨t, ht⟩ := h.damper
  obtain ⟨resize, hresize, hmoves⟩ := h.resize
  have happly := Damper.apply_running hd t ⟨a.pool, some x, r.now⟩
  rw [← ht] at happly
  have hturn := attend_of_apply haggregate happly
  rw [← turn_eq] at hturn
  rcases Decision.ofDemand_answer d (d.passes t r.now) x r.now a.pool with hkeep | hscale
  · rw [occasion, hkeep] at hturn
    refine ⟨_, ?_, .inl ⟨hturn, rfl, rfl⟩⟩
    exact ⟨⟨_, rfl⟩, resize, hresize, hmoves⟩
  · rw [occasion, hscale, carryOut_scaleTo (by exact hresize)] at hturn
    have hunsettled : ¬ Settled x a := by
      rintro ⟨p, hpool, hp⟩
      rw [hpool, Decision.ofDemand_answer_settled hp] at hscale
      cases hscale
    refine ⟨_, ?_, .inr ⟨hturn, ⟨_, hmoves _ _, rfl⟩, hunsettled, rfl⟩⟩
    exact ⟨⟨_, rfl⟩, resize, hresize, hmoves⟩

/-- A settled pool is kept in every cycle. -/
theorem turns_settled (hd : d.validate = .ok ()) (h : Closed d a) (hsettled : Settled x a)
    (rounds : List Round) (hsteady : Steady x rounds a) :
    ∃ a', turns rounds a = .ok (List.replicate rounds.length .noChange) a' ∧
      a'.requests = a.requests := by
  induction rounds generalizing a with
  | nil => exact ⟨a, rfl, rfl⟩
  | cons r rest ih =>
    obtain ⟨haggregate, hrest⟩ := hsteady
    obtain ⟨a', h', ⟨hturn, hpool, hrequests⟩ | ⟨-, -, hunsettled, -⟩⟩ := turn_closed hd h haggregate
    · rw [hturn] at hrest
      obtain ⟨p, hp, hdesired⟩ := hsettled
      obtain ⟨a'', hturns, hrequests'⟩ := ih h' ⟨p, hpool.trans hp, hdesired⟩ hrest
      exact ⟨a'', turns_cons hturn hturns, hrequests'.trans hrequests⟩
    · exact (hunsettled hsettled).elim

/-- **No flapping.** With any damping and tracker, from a pool of any size or none and at
any times: as long as the aggregate is the same finite number, cycles in closed loop
hand at most one target to the callback. It is that number rounded up and held
between zero and the largest size, and the cycles after it change nothing. -/
theorem turns_settle (hd : d.validate = .ok ()) (h : Closed d a) {q : ℚ} (hx : place x = some (q : Line))
    (rounds : List Round) (hsteady : Steady x rounds a) :
    ∃ decisions a', turns rounds a = .ok decisions a' ∧
      ((decisions = List.replicate rounds.length .noChange ∧ a'.requests = a.requests) ∨
        ∃ before after n, rounds.length = before + 1 + after ∧
          decisions = List.replicate before .noChange ++ .scaleTo n :: List.replicate after .noChange ∧
          a'.requests = a.requests ++ [n] ∧ (n.toNat : Int) = min (2 ^ 32 - 1) (max 0 ⌈q⌉)) := by
  induction rounds generalizing a with
  | nil => exact ⟨[], a, rfl, .inl ⟨rfl, rfl⟩⟩
  | cons r rest ih =>
    obtain ⟨haggregate, hrest⟩ := hsteady
    obtain ⟨a', h', ⟨hturn, -, hrequests⟩ | ⟨hturn, hsettled, -, hrequests⟩⟩ := turn_closed hd h haggregate
    · rw [hturn] at hrest
      obtain ⟨decisions, a'', hturns, ⟨rfl, hnone⟩ | ⟨before, after, n, hlength, rfl, hone, hn⟩⟩ :=
        ih h' hrest
      · exact ⟨_, a'', turns_cons hturn hturns, .inl ⟨rfl, hnone.trans hrequests⟩⟩
      · refine ⟨_, a'', turns_cons hturn hturns, .inr ⟨before + 1, after, n, ?_, rfl, ?_, hn⟩⟩
        · rw [List.length_cons, hlength]
          omega
        · rw [hone, hrequests]
    · rw [hturn] at hrest
      obtain ⟨a'', hturns, hkept⟩ := turns_settled hd h' hsettled rest hrest
      refine ⟨_, a'', turns_cons hturn hturns, .inr ⟨0, rest.length, _, ?_, rfl, hkept.trans hrequests, ?_⟩⟩
      · rw [List.length_cons]
        omega
      · have hlargest : Decision.largestPool = 2 ^ 32 - 1 := rfl
        rw [Decision.toNat_roundUp hx]
        omega

/-- A pool of ten whose resizes take effect at once, with half a unit of tolerance and a
minute of grace. -/
def loop : Autoscaler :=
  { fresh ⟨"predictions[0]", [], ⟨0.5, .ofSeconds 60⟩⟩ with resize := some .apply, pool := some ⟨10, 10⟩ }

/-- A demand of four. -/
def four (seconds : Int) : Round := ⟨[.computeUnits "f" 4.0], .ofSeconds seconds 0⟩

/-- The pool is made smaller after a minute, once. -/
theorem turns_settle_after_a_minute :
    ∃ a', turns [four 0, four 60, four 61] loop = .ok [.noChange, .scaleTo 4, .noChange] a' ∧
      a'.requests = [4] := by
  have hconfigure :
      Pipeline.configure ⟨"predictions[0]", [], ⟨0.5, .ofSeconds 60⟩⟩ (.new .still) = .ok () loop.pipeline :=
    Change.eq_ok_of_answer? (by decide +kernel)
  obtain ⟨hd, hdamper⟩ := Pipeline.running_of_configure hconfigure
  have hclosed : Closed ⟨0.5, .ofSeconds 60⟩ loop := ⟨⟨.idle, hdamper⟩, ⟨_, rfl, fun _ _ => rfl⟩⟩
  have hsteady : Steady 4.0 [four 0, four 60, four 61] loop :=
    ⟨Change.eq_ok_of_toOption (by decide +kernel), Change.eq_ok_of_toOption (by decide +kernel),
      Change.eq_ok_of_toOption (by decide +kernel), trivial⟩
  have hfour : place 4.0 = some ((4 : ℚ) : Line) := by
    show some (dyadic false (2 ^ 52) (-50) : Line) = _
    norm_num [dyadic]
  have hturns : turns [four 0, four 60, four 61] loop = .ok [.noChange, .scaleTo 4, .noChange] _ :=
    Change.eq_ok_of_answer? (by decide +kernel)
  refine ⟨_, hturns, ?_⟩
  obtain ⟨decisions, a', hrun, ⟨rfl, -⟩ | ⟨before, after, n, -, rfl, hrequests, -⟩⟩ :=
    turns_settle hd hclosed hfour _ hsteady
  · rw [hturns] at hrun
    injection hrun with hrun
    cases hrun
  · rw [hturns] at hrun
    injection hrun with hdecisions hstate
    have hmem : Decision.scaleTo n ∈ [.noChange, .scaleTo 4, .noChange] := by
      rw [hdecisions]
      simp
    have hn : n = 4 := by simpa using hmem
    rw [hstate, hrequests, hn]
    rfl

end Autoscaler

end PoolScaling
