import PoolScaling.Time.Instant

/-! Signed spans of time.

A span lies between two instants and is negative when the clock went back. It has whole
seconds, rounded down, and nanoseconds past them, so that the seconds decide which of two
spans is longer, and the nanoseconds only where the seconds agree. A span has at most
2^63 - 1 milliseconds either way. -/
namespace PoolScaling

structure Span where
  seconds : Int
  /-- Nanoseconds past the last whole second. -/
  subsecond : Nat
  deriving Repr, DecidableEq

namespace Span

/-- 2^63 - 1 milliseconds. -/
def longest : Span := ⟨9223372036854775, 807000000⟩

/-- As many milliseconds back. -/
def shortest : Span := ⟨-9223372036854776, 193000000⟩

def nanos (s : Span) : Int := s.seconds * 1000000000 + s.subsecond

/-- Whether `s` is at most as long as `t`. -/
def atMost (s t : Span) : Bool :=
  s.seconds < t.seconds || (s.seconds = t.seconds && s.subsecond ≤ t.subsecond)

/-- A duration as a span, unless it is longer than the longest one. -/
def ofDuration? (d : Duration) : Option Span :=
  if longest.seconds < d.seconds then none
  else
    let s : Span := ⟨d.seconds, d.subsecond⟩
    if s.atMost longest then some s else none

end Span

/-- The span from `earlier` to `t`. -/
def Instant.since (t earlier : Instant) : Span :=
  let nanos : Int := t.subsecond - earlier.subsecond
  ⟨t.seconds - earlier.seconds + t.leapBetween earlier + nanos.fdiv 1000000000,
    (nanos.fmod 1000000000).toNat⟩

end PoolScaling
