import PoolScaling.Proofs.Autoscaler.Cycle
import PoolScaling.Proofs.Run

/-! Callbacks.

A cycle hands its decision on last, and nothing it does depends on what becomes of that.
So a callback hears the targets that cycles decide on, and nothing else (`Heard`). Of a
callback that leaves the pool alone no cycle can tell what it reports, nor whether there
is one: it can be taken away before a run or after it (`Bereft`).
`callback_only_listens` says both of cycles one after another and of the loop. -/
namespace PoolScaling
open Change

namespace Resize

/-- Whether a callback, if there is one, leaves the pool alone, whatever it reports. -/
def IsPassive (callback : Option Resize) : Prop :=
  ∀ resize ∈ callback, ∀ target pool, (resize target pool).1 = pool

theorem isPassive_none : IsPassive none := by
  intro resize h
  cases h

theorem isPassive_accept : IsPassive (some .accept) := by
  intro resize h target pool
  cases h
  rfl

theorem isPassive_fail (reason : String) : IsPassive (some (.fail reason)) := by
  intro resize h target pool
  cases h
  rfl

end Resize

namespace Autoscaler

variable {ι : Type} {step : ι → Change Autoscaler (Failure DecisionError) Decision} {a b : Autoscaler}

/-- What the cycles of a loop come to. A crash is the last of them. -/
def outcomes : Nat → Autoscaler → List Outcome
  | 0, _ => []
  | n + 1, a =>
    result (timed a) :: if crashed (result (timed a)) then [] else outcomes n (stateOf (timed a))

/-! ### Loops in lockstep -/

section Lockstep

variable {R : Autoscaler → Autoscaler → Prop}

/-- Cycles in lockstep are so by the clock, if related autoscalers have the same one. -/
theorem timed_of_cycle (h : ∀ now, Lockstep R (cycle now) (cycle now)) (hclock : ∀ a b, R a b → b.clock = a.clock)
    (hset : ∀ a b clock, R a b → R { a with clock } { b with clock }) : Lockstep R timed timed := by
  intro a b hR
  rcases hread : a.clock.read with ⟨now | now, clock⟩
  · have hread' : b.clock.read = (none, clock) := by rw [hclock a b hR, hread]
    rw [timed_of_broken hread, timed_of_broken hread']
    exact ⟨rfl, hset a b clock hR⟩
  · have hread' : b.clock.read = (some now, clock) := by rw [hclock a b hR, hread]
    rw [timed_of_read hread, timed_of_read hread']
    exact h now _ _ (hset a b clock hR)

theorem wakeTimes_of_timed (h : Lockstep R timed timed) (n : Nat) : Lockstep R (wakeTimes n) (wakeTimes n) := by
  induction n with
  | zero => exact fun a b h => ⟨rfl, h⟩
  | succ n ih =>
    intro a b hR
    obtain ⟨hresult, hstate⟩ := h a b hR
    rw [wakeTimes_succ, wakeTimes_succ, hresult]
    split
    · exact ⟨rfl, hstate⟩
    · exact ih _ _ hstate

theorem outcomes_of_timed (h : Lockstep R timed timed) (n : Nat) (hR : R a b) : outcomes n a = outcomes n b := by
  induction n generalizing a b with
  | zero => rfl
  | succ n ih =>
    obtain ⟨hresult, hstate⟩ := h a b hR
    rw [outcomes, outcomes, hresult, ih hstate]

end Lockstep

/-! ### What the callback hears -/

/-- The target that a cycle has decided on. -/
def Outcome.target? : Outcome → Option UInt32
  | .ok (.scaleTo target) => some target
  | .ok .noChange | .error _ => none

/-- The targets among outcomes, if there is a callback to hand them to. -/
def told (a : Autoscaler) (outcomes : List Outcome) : List UInt32 :=
  match a.resize with
  | none => []
  | some _ => outcomes.filterMap Outcome.target?

theorem told_nil (a : Autoscaler) : a.told [] = [] := by
  unfold told
  cases a.resize <;> rfl

theorem told_error (a : Autoscaler) (e : Failure DecisionError) : a.told [.error e] = [] := by
  unfold told
  cases a.resize <;> rfl

theorem told_append (a : Autoscaler) (before after : List Outcome) :
    a.told (before ++ after) = a.told before ++ a.told after := by
  unfold told
  cases a.resize with
  | none => rfl
  | some resize => exact List.filterMap_append

theorem told_of_resize (h : b.resize = a.resize) (outcomes : List Outcome) :
    b.told outcomes = a.told outcomes := by
  unfold told
  rw [h]

theorem carryOut_resize (a : Autoscaler) (decision : Decision) : (a.carryOut decision).resize = a.resize := by
  cases decision with
  | noChange => rfl
  | scaleTo target => cases h : a.resize <;> simp [carryOut, h]

theorem carryOut_requests (a : Autoscaler) (decision : Decision) :
    (a.carryOut decision).requests = a.requests ++ a.told [.ok decision] := by
  cases decision <;> cases h : a.resize <;> simp [carryOut, told, h, Outcome.target?]

/-- Whether these outcomes are all that the callback has heard of on the way from one
autoscaler to another. -/
def Heard (a : Autoscaler) (outcomes : List Outcome) (a' : Autoscaler) : Prop :=
  a'.resize = a.resize ∧ a'.requests = a.requests ++ a.told outcomes

theorem Heard.refl (a : Autoscaler) : a.Heard [] a := by
  refine ⟨rfl, ?_⟩
  rw [told_nil, List.append_nil]

theorem Heard.trans {before after : List Outcome} {middle a' : Autoscaler} (h : a.Heard before middle)
    (h' : middle.Heard after a') : a.Heard (before ++ after) a' := by
  obtain ⟨hresize, hrequests⟩ := h
  obtain ⟨hresize', hrequests'⟩ := h'
  refine ⟨hresize'.trans hresize, ?_⟩
  rw [hrequests', hrequests, told_of_resize hresize, told_append, List.append_assoc]

theorem heard_error (a : Autoscaler) (e : Failure DecisionError) {a' : Autoscaler}
    (hresize : a'.resize = a.resize) (hrequests : a'.requests = a.requests) : a.Heard [.error e] a' := by
  refine ⟨hresize, ?_⟩
  rw [told_error, List.append_nil, hrequests]

theorem heard_cycle (now : Instant) (a : Autoscaler) :
    a.Heard [result (cycle now a)] (stateOf (cycle now a)) := by
  rw [cycle_eq]
  cases Pipeline.decide (gather a.forecasters a.pool now) a.pool now a.pipeline with
  | ok demand pipeline => exact ⟨carryOut_resize _ _, carryOut_requests _ _⟩
  | error e pipeline => exact heard_error a e rfl rfl

theorem heard_timed (a : Autoscaler) : a.Heard [result (timed a)] (stateOf (timed a)) := by
  rcases hread : a.clock.read with ⟨now | now, clock⟩
  · rw [timed_of_broken hread]
    exact heard_error a .crash rfl rfl
  · rw [timed_of_read hread]
    exact heard_cycle now { a with clock }

theorem heard_attempts (h : ∀ i (a : Autoscaler), a.Heard [result (step i a)] (stateOf (step i a)))
    (steps : List ι) (a : Autoscaler) : a.Heard (attempts step steps a).1 (attempts step steps a).2 := by
  induction steps generalizing a with
  | nil => exact Heard.refl a
  | cons i rest ih => exact (h i a).trans (ih _)

theorem heard_wakeTimes (n : Nat) (a : Autoscaler) : a.Heard (outcomes n a) (stateOf (wakeTimes n a)) := by
  induction n generalizing a with
  | zero => exact Heard.refl a
  | succ n ih =>
    rw [outcomes, wakeTimes_succ]
    split
    · exact heard_timed a
    · exact (heard_timed a).trans (ih _)

/-! ### Without the callback -/

/-- The autoscaler without its callback and what that has heard. -/
def withoutCallback (a : Autoscaler) : Autoscaler := { a with resize := none, requests := [] }

/-- Whether `b` is `a` without its callback, which has been a passive one. -/
def Bereft (a b : Autoscaler) : Prop := Resize.IsPassive a.resize ∧ b = a.withoutCallback

theorem carryOut_withoutCallback (h : Resize.IsPassive a.resize) (decision : Decision) :
    a.withoutCallback.carryOut decision = (a.carryOut decision).withoutCallback := by
  cases decision with
  | noChange => rfl
  | scaleTo target =>
    cases hresize : a.resize with
    | none => simp [carryOut, hresize, withoutCallback]
    | some resize => simp [carryOut, hresize, withoutCallback, h resize hresize]

theorem cycle_lockstep (now : Instant) : Lockstep Bereft (cycle now) (cycle now) := by
  intro a b hbereft
  obtain ⟨h, rfl⟩ := hbereft
  have hsame : Pipeline.decide (gather a.withoutCallback.forecasters a.withoutCallback.pool now)
      a.withoutCallback.pool now a.withoutCallback.pipeline =
        Pipeline.decide (gather a.forecasters a.pool now) a.pool now a.pipeline := rfl
  rw [cycle_eq, cycle_eq, hsame]
  cases Pipeline.decide (gather a.forecasters a.pool now) a.pool now a.pipeline with
  | ok demand pipeline =>
    refine ⟨rfl, ?_, carryOut_withoutCallback (a := { a with pipeline }) h _⟩
    rw [stateOf, carryOut_resize]
    exact h
  | error e pipeline => exact ⟨rfl, h, rfl⟩

theorem timed_lockstep : Lockstep Bereft timed timed := by
  refine timed_of_cycle cycle_lockstep ?_ ?_
  · intro a b hbereft
    obtain ⟨-, rfl⟩ := hbereft
    rfl
  · intro a b clock hbereft
    obtain ⟨h, rfl⟩ := hbereft
    exact ⟨h, rfl⟩

theorem wakeTimes_lockstep (n : Nat) : Lockstep Bereft (wakeTimes n) (wakeTimes n) :=
  wakeTimes_of_timed timed_lockstep n

theorem outcomes_of_bereft (n : Nat) (h : Bereft a b) : outcomes n a = outcomes n b :=
  outcomes_of_timed timed_lockstep n h

/-- **A callback hears every decision and has no say in any.** Over cycles at any times,
and over any number of cycles of the loop, the targets handed to the callback are those of
the cycles that decide to resize, in order and each once. And whatever passive callback
there is, none, one that accepts or one that fails with any reason among them: cycles come
to the same as without one, and leave the same but for the callback and what it has
heard. As the runs may end after any cycle, so does the state after each cycle, and so do
all cycles after it. -/
theorem callback_only_listens (a : Autoscaler) (times : List Instant) (n : Nat) :
    ((attempts cycle times a).2.requests = a.requests ++ a.told (attempts cycle times a).1 ∧
      (stateOf (wakeTimes n a)).requests = a.requests ++ a.told (outcomes n a)) ∧
    (∀ callback, Resize.IsPassive callback →
      let b := { a with resize := callback }
      attempts cycle times a.withoutCallback =
        ((attempts cycle times b).1, (attempts cycle times b).2.withoutCallback) ∧
      outcomes n a.withoutCallback = outcomes n b ∧
      result (wakeTimes n a.withoutCallback) = result (wakeTimes n b) ∧
      stateOf (wakeTimes n a.withoutCallback) = (stateOf (wakeTimes n b)).withoutCallback) ∧
    ∀ reason, ∀ callback ∈ [none, some Resize.accept, some (Resize.fail reason)],
      Resize.IsPassive callback := by
  refine ⟨⟨(heard_attempts heard_cycle times a).2, (heard_wakeTimes n a).2⟩, ?without, ?passive⟩
  case without =>
    intro callback h b
    have hbereft : Bereft b a.withoutCallback := ⟨h, rfl⟩
    obtain ⟨houtcomes, -, hlast⟩ := Lockstep.attempts cycle_lockstep times hbereft
    obtain ⟨hresult, -, hstate⟩ := wakeTimes_lockstep n _ _ hbereft
    exact ⟨Prod.ext houtcomes.symm hlast, (outcomes_of_bereft n hbereft).symm, hresult.symm, hstate⟩
  case passive =>
    intro reason callback hmem
    simp only [List.mem_cons, List.not_mem_nil, or_false] at hmem
    rcases hmem with rfl | rfl | rfl
    · exact Resize.isPassive_none
    · exact Resize.isPassive_accept
    · exact Resize.isPassive_fail reason

/-- A forecaster whose forecast half a minute past cannot be converted. -/
def faltering : Forecaster where
  id := "f"
  predict _ now := .ok <| some
    { value := 4.0, scale := if now = .ofSeconds 30 0 then .metric else .computeUnits, metric := "rps", timestamp := now }

/-- A pool of ten with a minute of grace, whose resizes are refused. -/
def refused : Autoscaler :=
  { fresh ⟨"predictions[0]", [], ⟨0.5, .ofSeconds 60⟩⟩ with
    forecasters := [faltering], resize := some (.fail "quota"), pool := some ⟨10, 10⟩ }

/-- A decision is held back, the next cycle fails, and two more decide on the same target,
as the refusal of the first changes nothing. -/
theorem callback_only_listens_refused :
    let times : List Instant := [.ofSeconds 0 0, .ofSeconds 30 0, .ofSeconds 60 0, .ofSeconds 61 0]
    Resize.IsPassive refused.resize ∧ (attempts cycle times refused).2.requests = [4, 4] ∧
      attempts cycle times refused.withoutCallback =
        ((attempts cycle times refused).1, (attempts cycle times refused).2.withoutCallback) := by
  intro times
  have htold : refused.told (attempts cycle times refused).1 = [4, 4] := by decide +kernel
  obtain ⟨⟨hrequests, -⟩, hwithout, hpassive⟩ := callback_only_listens refused times 0
  have hfail : Resize.IsPassive refused.resize := hpassive "quota" _ (by simp [refused])
  obtain ⟨hsame, -⟩ := hwithout refused.resize hfail
  refine ⟨hfail, ?_, hsame⟩
  rw [hrequests, htold]
  rfl

end Autoscaler

end PoolScaling
