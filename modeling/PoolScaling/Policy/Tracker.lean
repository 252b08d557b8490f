import PoolScaling.Time.Span

/-! The grace tracker.

A scale-down is held back until scale-downs have persisted for the grace period,
measured in decision time. The tracker starts with the first of them and ends
with the first decision that is none. When the period has elapsed the tracker
keeps running, so the scale-downs that follow pass at once. -/
namespace PoolScaling

inductive Tracker where
  | idle
  | since (start : Instant)
  deriving Repr, DecidableEq

namespace Tracker

/-- Whether `grace` has elapsed from `start` to `now`. A grace period that is no span never
does. -/
def elapsed (grace : Duration) (start now : Instant) : Bool :=
  (Span.ofDuration? grace).any fun span => span.atMost (now.since start)

/-- The tracker after a decision, and whether the decision passes. -/
def step (t : Tracker) (scaleDown : Bool) (now : Instant) (grace : Duration) : Tracker × Bool :=
  if scaleDown then
    match t with
    | idle => (since now, false)
    | since start => (since start, elapsed grace start now)
  else (idle, true)

end Tracker

end PoolScaling
