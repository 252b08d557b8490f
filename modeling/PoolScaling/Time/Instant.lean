import PoolScaling.Time.Duration

/-! Points in time.

An instant counts nanoseconds from the start of 1970 in universal time and may
lie before it. Instants are told apart from the year -262143 to the year 262142. -/
namespace PoolScaling

structure Instant where
  nanos : Int
  /-- Inside a leap second, whose instants are numbered like those of the second
  before it. -/
  leap : Bool := false
  deriving Repr, DecidableEq

namespace Instant

def ofMillis (ms : Int) : Instant := { nanos := ms * 1000000 }

def ofSeconds (s : Int) (nanos : Nat) : Instant := { nanos := s * 1000000000 + nanos }

/-- Whole seconds, rounded down. -/
def seconds (t : Instant) : Int := t.nanos.fdiv 1000000000

/-- Nanoseconds past the last whole second; a second more in a leap second. -/
def subsecond (t : Instant) : Nat :=
  (t.nanos.fmod 1000000000).toNat + if t.leap then 1000000000 else 0

/-- Whole milliseconds, rounded down. -/
def millis (t : Instant) : Int := (t.seconds * 1000) + (t.subsecond / 1000000 : Nat)

/-- Seconds since midnight; in a leap second, those of the second before it. -/
def secondOfDay (t : Instant) : Int := t.seconds.fmod 86400

/-- The seconds that a leap second adds to the time from `earlier` to `t`. One that either
lies in is counted when the other comes later by the time of day, whatever the days; the
fraction of a second tells the rest. -/
def leapBetween (t earlier : Instant) : Int :=
  if earlier.leap && earlier.secondOfDay < t.secondOfDay then 1
  else if t.leap && t.secondOfDay < earlier.secondOfDay then -1
  else 0

/-- Nanoseconds from `earlier` to `t`; negative when the clock went back. -/
def nanosSince (t earlier : Instant) : Int :=
  (t.seconds - earlier.seconds + t.leapBetween earlier) * 1000000000
    + ((t.subsecond : Int) - earlier.subsecond)

/-- The seconds that the first and the last instants lie in. -/
def range : Int × Int := (-8334601228800, 8210266876799)

def isInRange (t : Instant) : Bool := range.1 ≤ t.seconds && t.seconds ≤ range.2

/-- The instant moved by a number of nanoseconds, wherever that is. A leap second is left
for the second after it as if it were the second before, and for the second before it as if
it were the second after. -/
def moved (t : Instant) (nanos : Int) : Instant :=
  if !t.leap then ⟨t.nanos + nanos, false⟩
  else
    let past := t.nanos.fmod 1000000000 + nanos
    if past < 0 then ⟨t.nanos + nanos + 1000000000, false⟩
    else ⟨t.nanos + nanos, past < 1000000000⟩

/-- The instant moved by a number of nanoseconds, if there is one. -/
def shift? (t : Instant) (nanos : Int) : Option Instant :=
  let t := t.moved nanos
  if t.isInRange then some t else none

end Instant

end PoolScaling
